import Mathlib.Data.List.Nodup
import Wiring.Proofs.Grouping

/-!
# Slots of elements

The slot of an element is told by one text: its collection, its declaration and its map key, with a
`#` between them.  The name of a declaration may hold a `#` as well.  So elements of one collection
share a slot if they are of one declaration and one map key, and also if the name of one declaration
runs on into the map key of the other (`Element.RunsInto`), and in no other way
(`elementKey_eq_iff`).  Where no name runs on like this, each contributor of a collection has a slot
of its own, and only there (`slots_apart`).
-/

namespace Wiring

open Std

namespace Element

/-! ### What a slot tells -/

/-- What a slot tells of a map key. -/
def entryText : Option String → String
  | some value => "#" ++ value
  | none => ""

/-- The value of the map key, for an entry of a map. -/
def mapValue? (e : Element) : Option String := e.mapKey?.map (·.value)

/-- The name of `f`'s declaration is that of `e`'s, then a `#` and what `e`'s map key begins with;
the rest of the map key is what the slot of `f` tells behind its declaration. -/
def RunsInto (e f : Element) : Prop :=
  ∃ s, f.origin.declaration.name = e.origin.declaration.name ++ "#" ++ s ∧
    e.mapValue? = some (s ++ entryText f.mapValue?)

/-- The map key, if there is one, is of the key type of the map. -/
def Typed (e : Element) : Prop :=
  ∀ m, e.mapKey? = some m → ∃ value, e.collection = .map m.typeName value

variable {e f : Element}

/-- A declaration without a `#` in its name is run into by none. -/
theorem not_runsInto (h : '#' ∉ f.origin.declaration.name.toList) : ¬ e.RunsInto f := by
  rintro ⟨s, hname, -⟩
  simp [hname] at h

theorem not_runsInto_self : ¬ e.RunsInto e := by
  rintro ⟨s, hname, -⟩
  have := congrArg String.length hname
  simp only [String.length_append] at this
  have : "#".length = 1 := rfl
  omega

@[simp] theorem toList_entryText_some (value : String) :
    (entryText (some value)).toList = '#' :: value.toList := by
  simp [entryText]

theorem entryText_inj : ∀ {v w : Option String}, entryText v = entryText w → v = w
  | none, none, _ => rfl
  | none, some w, h | some w, none, h => by simp [entryText, String.ext_iff] at h
  | some v, some w, h => by simpa [entryText] using h

/-- A name and a map key make one text with another name and map key if they are the same, or if one
name goes on with what the other map key begins with. -/
theorem append_entryText_eq_iff {d d' : String} {v v' : Option String} :
    d ++ entryText v = d' ++ entryText v' ↔ d = d' ∧ v = v' ∨
      (∃ s, d' = d ++ "#" ++ s ∧ v = some (s ++ entryText v')) ∨
      ∃ s, d = d' ++ "#" ++ s ∧ v' = some (s ++ entryText v) := by
  -- if one name is longer, the other map key makes up for it
  have longer : ∀ {d d' : String} {v v' : Option String} {a : List Char},
      d'.toList = d.toList ++ a → (entryText v).toList = a ++ (entryText v').toList →
      d = d' ∧ v = v' ∨ ∃ s, d' = d ++ "#" ++ s ∧ v = some (s ++ entryText v') := by
    intro d d' v v' a hd hv
    cases a with
    | nil => exact .inl ⟨String.toList_inj.mp (by simpa using hd.symm),
        entryText_inj (String.toList_inj.mp hv)⟩
    | cons c a =>
        cases v with
        | none => simp [entryText] at hv
        | some value =>
            rw [toList_entryText_some] at hv
            obtain ⟨rfl, hv⟩ := List.cons.inj hv
            refine .inr ⟨String.ofList a, String.toList_inj.mp ?_, congrArg some ?_⟩
            · simp [hd]
            · exact String.toList_inj.mp (by simpa using hv)
  constructor
  · intro h
    have h := congrArg String.toList h
    rw [String.toList_append, String.toList_append, List.append_eq_append_iff] at h
    rcases h with ⟨a, hd, hv⟩ | ⟨a, hd, hv⟩
    · exact (longer hd hv).imp_right .inl
    · exact (longer hd hv).imp (.imp .symm .symm) .inr
  · rintro (⟨rfl, rfl⟩ | ⟨s, rfl, rfl⟩ | ⟨s, rfl, rfl⟩)
    · rfl
    · simp [entryText, String.append_assoc]
    · simp [entryText, String.append_assoc]

theorem qualifier_elementKey (e : Element) : e.elementKey.qualifier =
    some ("MultibindingElement(" ++ e.collection.key.render ++ "#" ++
      (e.origin.declaration.name ++ entryText e.mapValue?) ++ ")") := by
  simp only [elementKey, mapValue?]
  cases e.mapKey? <;> simp [entryText, String.append_assoc]

/-- **Elements of one collection share a slot** if they agree in declaration and map key, or if the
name of one declaration runs into the map key of the other; and in no other way. -/
theorem elementKey_eq_iff (h : e.collection.key = f.collection.key) :
    e.elementKey = f.elementKey ↔ e.elementKey.typeName = f.elementKey.typeName ∧
      (e.origin.declaration = f.origin.declaration ∧ e.mapValue? = f.mapValue? ∨
        e.RunsInto f ∨ f.RunsInto e) := by
  rw [TypeKey.ext_iff, qualifier_elementKey, qualifier_elementKey, h]
  simp [append_entryText_eq_iff, RunsInto, DeclarationId.ext_iff]

/-- In maps of one key, elements that share a slot have map keys of one type, if these are the key
types of the maps. -/
theorem mapKey_eq_of_elementKey_eq (hc : e.collection.key = f.collection.key)
    (he : e.Typed) (hf : f.Typed) (h : e.elementKey.typeName = f.elementKey.typeName)
    (hv : e.mapValue? = f.mapValue?) : e.mapKey? = f.mapKey? := by
  have named : ∀ {e : Element} {m keyType value}, e.mapKey? = some m →
      e.collection = .map keyType value → e.elementKey.typeName = value.typeName := by
    intro e m keyType value hm hcol
    cases hk : e.kind with
    | intoMap => simp [elementKey, hk, hcol, Collection.element]
    | intoSet | elementsIntoSet => simp [mapKey?, hk] at hm
  simp only [mapValue?] at hv
  cases hm : e.mapKey? with
  | none => exact (Option.map_eq_none_iff.mp (by rw [← hv, hm]; rfl)).symm
  | some m =>
      cases hn : f.mapKey? with
      | none => simp [hm, hn] at hv
      | some n =>
          obtain ⟨value, hcol⟩ := he m hm
          obtain ⟨value', hcol'⟩ := hf n hn
          rw [named hm hcol, named hn hcol'] at h
          -- maps of one key and one type of values have one type of keys
          have htype : m.typeName = n.typeName := by
            have := congrArg TypeKey.typeName hc
            simpa [hcol, hcol', Collection.key, TypeKey.mapOf, h, String.append_assoc] using this
          have hvalue : m.value = n.value := by simpa [hm, hn] using hv
          rw [MapKey.ext htype hvalue]

end Element

namespace CollectionTable

variable {ds : List CollectionDeclaration} {es : List Element} {key : TypeKey}

/-- Contributors of a collection that agree in declaration and map key are one. -/
theorem contributor_unique {e f : Element} (he : e ∈ (ofDeclarations ds es).contributors key)
    (hf : f ∈ (ofDeclarations ds es).contributors key)
    (hd : e.origin.declaration = f.origin.declaration) (hm : e.mapKey? = f.mapKey?) : e = f := by
  obtain ⟨hke, he⟩ := mem_contributors.mp he
  obtain ⟨hkf, hf⟩ := mem_contributors.mp hf
  have rivals := Element.rivals_congr (Element.rivals_iff.mpr ⟨hke.trans hkf.symm, hd, hm⟩)
  rw [← rivals, he] at hf
  exact Option.some.inj hf

/-- **Elements have slots of their own, unless the name of a declaration runs into a map key.**
Two elements of one collection share a slot exactly if they agree in declaration and map key, or if
one runs into the other; and if all map keys have the key types of their maps, the contributors of a
collection have different slots exactly if none that asks for the same type runs into another. -/
theorem slots_apart (e f : Element) :
    (e.collection.key = f.collection.key →
      (e.elementKey = f.elementKey ↔ e.elementKey.typeName = f.elementKey.typeName ∧
        (e.origin.declaration = f.origin.declaration ∧ e.mapValue? = f.mapValue? ∨
          e.RunsInto f ∨ f.RunsInto e))) ∧
    ∀ (ds : List CollectionDeclaration) (es : List Element) (key : TypeKey),
      (∀ e ∈ es, e.Typed) →
      ((((ofDeclarations ds es).contributors key).map Element.elementKey).Nodup ↔
        ∀ e ∈ (ofDeclarations ds es).contributors key,
          ∀ f ∈ (ofDeclarations ds es).contributors key,
            e.elementKey.typeName = f.elementKey.typeName → ¬ e.RunsInto f) := by
  refine ⟨Element.elementKey_eq_iff, fun ds es key typed => ?_⟩
  have filed : ∀ e ∈ (ofDeclarations ds es).contributors key, e ∈ es ∧ e.collection.key = key :=
    fun e he => ((mem_contributors.mp he).imp_right List.mem_of_find?_eq_some).symm
  have nodup : ((ofDeclarations ds es).contributors key).Nodup :=
    pairwise_contributors.imp fun {e f} hlt heq => by
      have same : Element.compare f f = .eq := ReflCmp.compare_self
      rw [heq, same] at hlt
      cases hlt
  rw [List.nodup_map_iff_inj_on nodup]
  constructor
  · intro inj e he f hf htype hruns
    have hc := (filed e he).2.trans (filed f hf).2.symm
    obtain rfl := inj e he f hf ((Element.elementKey_eq_iff hc).mpr ⟨htype, .inr (.inl hruns)⟩)
    exact Element.not_runsInto_self hruns
  · intro apart e he f hf hslot
    have hc := (filed e he).2.trans (filed f hf).2.symm
    obtain ⟨htype, ⟨hd, hv⟩ | hruns | hruns⟩ := (Element.elementKey_eq_iff hc).mp hslot
    · exact contributor_unique he hf hd (Element.mapKey_eq_of_elementKey_eq hc
        (typed e (filed e he).1) (typed f (filed f hf).1) htype hv)
    · exact absurd hruns (apart e he f hf htype)
    · exact absurd hruns (apart f hf e he htype.symm)

/-- A handler of requests, declared at a route for a method. -/
def handler (route method : String) : Element :=
  .intoMap (.of route) ⟨"String", method⟩ ⟨"Handler", none⟩ []

/-- Two handlers whose declarations differ in what stands behind a separator. -/
theorem slots_apart_routes :
    let e := handler "Routes" "get/users"
    let f := handler "Routes/get" "users"
    let contributors := (ofDeclarations [] [e, f]).contributors ⟨"Map<String, Handler>", none⟩
    e.collection.key = f.collection.key ∧ e.elementKey ≠ f.elementKey ∧
      (∀ e' ∈ [e, f], e'.Typed) ∧ contributors = [e, f] ∧
      (contributors.map Element.elementKey).Nodup := by
  intro e f contributors
  have typed : ∀ e' ∈ [e, f], e'.Typed := by
    simp [e, f, handler, Element.Typed, Element.intoMap, Element.mapKey?]
  have listed : contributors = [e, f] := by decide +kernel
  have plain : ∀ e' ∈ [e, f], '#' ∉ e'.origin.declaration.name.toList := by decide +kernel
  obtain ⟨alone, together⟩ := slots_apart e f
  refine ⟨rfl, fun hslot => ?_, typed, listed, (together [] [e, f] _ typed).mpr ?_⟩
  · obtain ⟨-, ⟨hd, -⟩ | hruns | hruns⟩ := (alone rfl).mp hslot
    · exact absurd hd (by decide)
    · exact Element.not_runsInto (plain f (by simp)) hruns
    · exact Element.not_runsInto (plain e (by simp)) hruns
  · exact fun _ _ e' he' _ => Element.not_runsInto (plain e' (listed ▸ he'))

/-- With `#` for the separator the declaration of one runs into the map key of the other, and they
share a slot. -/
theorem slots_shared :
    let e := handler "Routes" "get#users"
    let f := handler "Routes#get" "users"
    e.collection = f.collection ∧ e.origin.declaration ≠ f.origin.declaration ∧
      e.mapValue? ≠ f.mapValue? ∧ e.elementKey = f.elementKey ∧
      (ofDeclarations [] [e, f]).contributors ⟨"Map<String, Handler>", none⟩ = [e, f] := by
  decide +kernel

end CollectionTable

end Wiring
