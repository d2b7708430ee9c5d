import Wiring.Proofs.Initialization

/-!
# Parts of a graph that lead nowhere else

Some bindings with their edges are a closed part of others (`ClosedPart`) if the edges from a key of
the part are the same in both and lead back into it.  What ways that start at a key say of it is then
said alike in the part and in the whole.  So the permitted cycles of the part are those of the whole
whose members are in it, but for the order of their members (`mem_unordered_permitted`,
`ClosedPart.isBroken_iff`), and its scoped keys are initialised in the order of the whole
(`ClosedPart.scopedOrder_eq_filter`).

The latter rests on schedules: if each job of a problem is one of a larger one, a key of it is ready
in both after the same keys, so its keys are done in the order of the larger one
(`InitProblem.order_eq_filter`).
-/

namespace Wiring

open Std Relation

/-! ### Schedules of a part -/

namespace InitProblem

variable {p p' : InitProblem} {site site' : TypeKey → InitSite}

/-- Two lists of the same keys that each take the first of the ready keys are equal. -/
theorem Greedy.unique (hp : p.WellPosed site) {l m : List TypeKey} (hl : p.Greedy site l)
    (hm : p.Greedy site m) (hln : l.Nodup) (hmn : m.Nodup) (h : ∀ k, k ∈ l ↔ k ∈ m)
    (hk : ∀ k ∈ l, k ∈ p.jobs.map (·.site.key)) : l = m := by
  have hlength : l.length = m.length := ((List.perm_ext_iff_of_nodup hln hmn).mpr h).length_eq
  suffices ∀ ours theirs front, l = front ++ ours → m = front ++ theirs → ours = theirs from
    this l m [] rfl rfl
  intro ours
  induction ours with
  | nil =>
      rintro theirs front rfl rfl
      have : theirs.length = 0 := by simpa using hlength.symm
      exact (List.eq_nil_of_length_eq_zero this).symm
  | cons k rest ih =>
      intro theirs front hl' hm'
      cases theirs with
      | nil =>
          rw [hl', hm'] at hlength
          simp at hlength
      | cons k' rest' =>
          obtain ⟨ready, first⟩ := hl front k rest hl'
          obtain ⟨ready', first'⟩ := hm front k' rest' hm'
          have known : k ∈ p.jobs.map (·.site.key) := hk k (hl' ▸ by simp)
          have known' : k' ∈ p.jobs.map (·.site.key) := hk k' ((h k').mpr (hm' ▸ by simp))
          have same : site k' = site k := by
            rcases first _ ready' with he | hlt
            · exact he
            · rcases first' _ ready with he | hlt'
              · exact he.symm
              · rw [OrientedCmp.gt_of_lt hlt] at hlt'
                cases hlt'
          obtain rfl : k' = k := by rw [← hp.key_site known', same, hp.key_site known]
          rw [ih rest' (front ++ [k']) (by simpa using hl') (by simpa using hm')]

section

variable (hp : p.WellPosed site) (hp' : p'.WellPosed site') (hj : ∀ job ∈ p.jobs, job ∈ p'.jobs)

include hp hp' hj

/-- A key of the smaller problem is ready after some keys of it if it is ready in the larger one
after these and any others. -/
theorem ready_filter_iff {done : List TypeKey} {place : InitSite} :
    p.Ready (done.filter (· ∈ p.jobs.map (·.site.key))) place ↔
      p'.Ready done place ∧ place.key ∈ p.jobs.map (·.site.key) := by
  constructor
  · rintro ⟨job, hjob, rfl, hdone, hneeds⟩
    have known : job.site.key ∈ p.jobs.map (·.site.key) := List.mem_map_of_mem (f := (·.site.key)) hjob
    exact ⟨⟨job, hj job hjob, rfl, fun h => hdone (List.mem_filter.mpr ⟨h, decide_eq_true known⟩),
      fun k hk => (List.mem_filter.mp (hneeds k hk)).1⟩, known⟩
  · rintro ⟨⟨job, hjob, rfl, hdone, hneeds⟩, known⟩
    obtain ⟨other, hother, hkey⟩ := List.mem_map.mp known
    obtain rfl := hp'.job_unique (hj other hother) hjob hkey
    exact ⟨other, hother, rfl, fun h => hdone (List.mem_filter.mp h).1, fun k hk =>
      List.mem_filter.mpr ⟨hneeds k hk, decide_eq_true (hp.needs_mem other hother k hk)⟩⟩

theorem site_eq {k : TypeKey} (hk : k ∈ p.jobs.map (·.site.key)) : site' k = site k := by
  obtain ⟨job, hjob, rfl⟩ := List.mem_map.mp hk
  rw [hp.sited job hjob, hp'.sited job (hj job hjob)]

/-- What a filter by the keys of the smaller problem leaves of a greedy list is greedy. -/
theorem Greedy.filter {l : List TypeKey} (hl : p'.Greedy site' l) :
    p.Greedy site (l.filter (· ∈ p.jobs.map (·.site.key))) := by
  intro front k back h
  obtain ⟨before, after, rfl, rfl, hafter⟩ := List.filter_eq_append_iff.mp h
  obtain ⟨between, rest, rfl, hbetween, known, -⟩ := List.filter_eq_cons_iff.mp hafter
  replace known := of_decide_eq_true known
  -- nothing of the smaller problem stands between the keys before `k` and `k`
  have passed : before.filter (· ∈ p.jobs.map (·.site.key)) =
      (before ++ between).filter (· ∈ p.jobs.map (·.site.key)) := by
    rw [List.filter_append, List.filter_eq_nil_iff.mpr hbetween, List.append_nil]
  obtain ⟨ready, first⟩ := hl (before ++ between) k rest (by simp)
  rw [passed, ← site_eq hp hp' hj known]
  refine ⟨(ready_filter_iff hp hp' hj).mpr ⟨ready, ?_⟩, fun other hother =>
    first other ((ready_filter_iff hp hp' hj).mp hother).1⟩
  rwa [site_eq hp hp' hj known, hp.key_site known]

/-- **The jobs of a part are done in the order of the whole.** -/
theorem order_eq_filter (ha : ∀ k, ¬ TransGen p'.Needs k k) :
    p.order = p'.order.filter (· ∈ p.jobs.map (·.site.key)) := by
  have needs : ∀ a b, p.Needs a b → p'.Needs a b := fun a b ⟨job, hjob, h⟩ =>
    ⟨job, hj job hjob, h⟩
  have ha' : ∀ k, ¬ TransGen p.Needs k k := fun k hk => ha k (TransGen.mono needs _ _ hk)
  have greedy : p.Greedy site p.order := order_eq_done hp ha' ▸ greedy_after hp _
  have greedy' : p'.Greedy site' p'.order := order_eq_done hp' ha ▸ greedy_after hp' _
  refine greedy.unique hp (Greedy.filter hp hp' hj greedy') (nodup_order hp)
    ((nodup_order hp').filter _) (fun k => ?_) fun k hk => (mem_order hp).mp hk
  rw [List.mem_filter, mem_order hp, mem_order hp', decide_eq_true_iff]
  refine ⟨fun hk => ⟨?_, hk⟩, And.right⟩
  obtain ⟨job, hjob, rfl⟩ := List.mem_map.mp hk
  exact List.mem_map_of_mem (f := (·.site.key)) (hj job hjob)

end

end InitProblem

/-! ### Cycles, whatever the order of their members -/

namespace PermittedCycle

/-- The cycle with its members in key order. -/
def unordered (c : PermittedCycle) : PermittedCycle :=
  { c with members := (SortedSet.ofList c.members).toList }

theorem mem_unordered {c : PermittedCycle} {k : TypeKey} : k ∈ c.unordered.members ↔ k ∈ c.members :=
  SortedSet.mem_ofList

theorem unordered_eq_iff {c d : PermittedCycle} : c.unordered = d.unordered ↔
    (∀ k, k ∈ c.members ↔ k ∈ d.members) ∧ c.deferredEdges = d.deferredEdges := by
  constructor
  · intro h
    have deferred : c.unordered.deferredEdges = d.unordered.deferredEdges := by rw [h]
    exact ⟨fun k => by rw [← mem_unordered, h, mem_unordered], deferred⟩
  · rintro ⟨hmembers, hdeferred⟩
    have same : SortedSet.ofList c.members = SortedSet.ofList d.members :=
      SortedSet.ext_mem fun k => by simp only [SortedSet.mem_ofList, hmembers]
    rw [unordered, unordered, same, hdeferred]

end PermittedCycle

namespace CycleAnalysis

variable {bindings : SortedMap TypeKey Binding} {edges : List Edge} {order : List TypeKey}

/-- What makes a cycle permitted, but for the order of its members. -/
structure IsBroken (bindings : SortedMap TypeKey Binding) (edges : List Edge) (c : PermittedCycle) :
    Prop where
  /-- The members are all bound keys that lead to a member and back. -/
  mem_members : ∀ k ∈ c.members, ∀ l, l ∈ c.members ↔ bindings.contains l ∧
    ReflTransGen (DependsBy bindings edges fun _ => True) k l ∧
    ReflTransGen (DependsBy bindings edges fun _ => True) l k
  inner : ∃ k ∈ c.members, ∃ l ∈ c.members, DependsBy bindings edges (fun _ => True) k l
  broken : ∀ k ∈ c.members, ¬ TransGen (DependsBy bindings edges (·.access = .canonical)) k k
  increasing : c.deferredEdges.Pairwise fun d d' => compare d d' = .lt
  mem_deferredEdges : ∀ d, d ∈ c.deferredEdges ↔
    d.source ∈ c.members ∧ d.target ∈ c.members ∧
      ∃ e ∈ edges, e.access ≠ .canonical ∧ e.source = d.source ∧ e.target = d.target

theorem isPermitted_iff {c : PermittedCycle} : IsPermitted bindings edges order c ↔
    IsBroken bindings edges c ∧ c.members.Pairwise (Precedes order) :=
  ⟨fun h => ⟨⟨h.mem_members, h.inner, h.broken, h.increasing, h.mem_deferredEdges⟩, h.ordered⟩,
    fun ⟨h, ordered⟩ =>
      ⟨h.mem_members, h.inner, h.broken, ordered, h.increasing, h.mem_deferredEdges⟩⟩

/-- Cycles that differ in the order of their members only are broken alike. -/
theorem IsBroken.congr {c d : PermittedCycle} (h : IsBroken bindings edges c)
    (hcd : c.unordered = d.unordered) : IsBroken bindings edges d := by
  obtain ⟨hmembers, hdeferred⟩ := PermittedCycle.unordered_eq_iff.mp hcd
  obtain ⟨mem_members, ⟨k, hk, l, hl, hkl⟩, broken, increasing, mem_deferredEdges⟩ := h
  exact
    { mem_members := fun k hk l =>
        (hmembers l).symm.trans (mem_members k ((hmembers k).mpr hk) l)
      inner := ⟨k, (hmembers k).mp hk, l, (hmembers l).mp hl, hkl⟩
      broken := fun k hk => broken k ((hmembers k).mpr hk)
      increasing := hdeferred ▸ increasing
      mem_deferredEdges := fun e => by
        rw [← hdeferred, mem_deferredEdges, hmembers, hmembers] }

/-- **The permitted cycles but for the order of their members.** -/
theorem mem_unordered_permitted {u : PermittedCycle} :
    u ∈ (analyze bindings edges order).permitted.map PermittedCycle.unordered ↔
      IsBroken bindings edges u ∧ u.unordered = u := by
  have twice : ∀ c : PermittedCycle, c.unordered.unordered = c.unordered := fun c =>
    PermittedCycle.unordered_eq_iff.mpr ⟨fun _ => PermittedCycle.mem_unordered, rfl⟩
  rw [List.mem_map]
  constructor
  · rintro ⟨c, hc, rfl⟩
    exact ⟨(isPermitted_iff.mp (mem_permitted_iff.mp hc)).1.congr (twice c).symm, twice c⟩
  · rintro ⟨hu, same⟩
    -- the members, in the order of their resolution
    let c : PermittedCycle := { u with members := (rankedKeys bindings order).filter (· ∈ u.members) }
    have alike : c.unordered = u.unordered := by
      refine PermittedCycle.unordered_eq_iff.mpr ⟨fun k => ?_, rfl⟩
      rw [List.mem_filter, decide_eq_true_iff, mem_rankedKeys]
      exact ⟨And.right, fun hk => ⟨((hu.mem_members k hk k).mp hk).1, hk⟩⟩
    refine ⟨c, mem_permitted_iff.mpr (isPermitted_iff.mpr ⟨hu.congr alike.symm, ?_⟩),
      alike.trans same⟩
    exact (pairwise_rankedKeys bindings order).filter _

theorem nodup_unordered_permitted :
    ((analyze bindings edges order).permitted.map PermittedCycle.unordered).Nodup := by
  refine nodup_permitted.map_on fun c hc d hd hcd => ?_
  obtain ⟨hmembers, hdeferred⟩ := PermittedCycle.unordered_eq_iff.mp hcd
  have members : c.members = d.members := eq_of_pairwise_of_mem_iff (fun _ _ => Precedes.asymm)
    (mem_permitted_iff.mp hc).ordered (mem_permitted_iff.mp hd).ordered hmembers
  cases c
  cases d
  simp_all

end CycleAnalysis

/-! ### Ways within a part -/

/-- A way from a thing of a closed kind keeps to the kind, and to what holds of its steps there. -/
theorem reflTransGen_of_closed {α : Type} {r s : α → α → Prop} {P : α → Prop}
    (closed : ∀ a b, P a → s a b → P b ∧ r a b) {a b : α} (ha : P a) (h : ReflTransGen s a b) :
    P b ∧ ReflTransGen r a b := by
  induction h with
  | refl => exact ⟨ha, .refl⟩
  | tail _ hbc ih =>
      obtain ⟨hc, hr⟩ := closed _ _ ih.1 hbc
      exact ⟨hc, ih.2.tail hr⟩

/-- Bindings with their edges that are a part of others from which no edge leads out. -/
structure ClosedPart (part : SortedMap TypeKey Binding) (partEdges : List Edge)
    (bindings : SortedMap TypeKey Binding) (edges : List Edge) : Prop where
  get? : ∀ k b, part.get? k = some b → bindings.get? k = some b
  mem_edges : ∀ e, part.contains e.source = true → (e ∈ partEdges ↔ e ∈ edges)
  closed : ∀ e ∈ partEdges, part.contains e.source = true → part.contains e.target = true

namespace ClosedPart

variable {part bindings : SortedMap TypeKey Binding} {partEdges edges : List Edge}
  (hp : ClosedPart part partEdges bindings edges) {k l : TypeKey}

include hp

theorem contains (h : part.contains k = true) : bindings.contains k = true := by
  obtain ⟨b, hb⟩ := SortedMap.contains_iff.mp h
  exact SortedMap.contains_iff.mpr ⟨b, hp.get? k b hb⟩

/-- The binding of a key of the part. -/
theorem get?_iff (h : part.contains k = true) {b : Binding} :
    part.get? k = some b ↔ bindings.get? k = some b := by
  obtain ⟨b', hb'⟩ := SortedMap.contains_iff.mp h
  rw [hb', hp.get? k b' hb']

/-! ### Cycles of a part -/

section Cycles

open CycleAnalysis

variable {keep : Edge → Prop}

theorem depends_iff (hk : part.contains k = true) :
    DependsBy part partEdges keep k l ↔ DependsBy bindings edges keep k l := by
  constructor
  · rintro ⟨-, hl, e, he, hkeep, rfl, rfl⟩
    exact ⟨hp.contains hk, hp.contains hl, e, (hp.mem_edges e hk).mp he, hkeep, rfl, rfl⟩
  · rintro ⟨-, -, e, he, hkeep, rfl, rfl⟩
    have he := (hp.mem_edges e hk).mpr he
    exact ⟨hk, hp.closed e he hk, e, he, hkeep, rfl, rfl⟩

/-- No way leads out of the part. -/
theorem contains_of_way (hk : part.contains k = true)
    (h : ReflTransGen (DependsBy bindings edges keep) k l) : part.contains l = true :=
  (reflTransGen_of_closed (P := (part.contains · = true))
    (fun _ _ ha h => ⟨((hp.depends_iff ha).mpr h).2.1, h⟩) hk h).1

/-- A way from a key of the part keeps to it. -/
theorem reaches_iff (hk : part.contains k = true) :
    ReflTransGen (DependsBy part partEdges keep) k l ↔
      part.contains l = true ∧ ReflTransGen (DependsBy bindings edges keep) k l := by
  constructor
  · exact reflTransGen_of_closed (P := (part.contains · = true))
      (fun a b _ h => ⟨h.2.1, (hp.depends_iff h.1).mp h⟩) hk
  · rintro ⟨-, h⟩
    refine (reflTransGen_of_closed (P := (part.contains · = true)) (fun a b ha h => ?_) hk h).2
    have h := (hp.depends_iff ha).mpr h
    exact ⟨h.2.1, h⟩

theorem around_iff (hk : part.contains k = true) :
    TransGen (DependsBy part partEdges keep) k k ↔
      TransGen (DependsBy bindings edges keep) k k := by
  simp only [TransGen.head'_iff]
  refine exists_congr fun a => ⟨fun ⟨h, ha⟩ => ⟨(hp.depends_iff hk).mp h, ?_⟩, fun ⟨h, ha⟩ => ?_⟩
  · exact ((hp.reaches_iff h.2.1).mp ha).2
  · have h := (hp.depends_iff hk).mpr h
    exact ⟨h, (hp.reaches_iff h.2.1).mpr ⟨hk, ha⟩⟩

/-- What breaks a cycle among keys of the part breaks it in the whole. -/
theorem isBroken_iff {c : PermittedCycle} (hc : ∀ k ∈ c.members, part.contains k = true) :
    IsBroken part partEdges c ↔ IsBroken bindings edges c := by
  have tied : ∀ k ∈ c.members, ∀ l, (part.contains l = true ∧
        ReflTransGen (DependsBy part partEdges fun _ => True) k l ∧
        ReflTransGen (DependsBy part partEdges fun _ => True) l k) ↔
      (bindings.contains l = true ∧ ReflTransGen (DependsBy bindings edges fun _ => True) k l ∧
        ReflTransGen (DependsBy bindings edges fun _ => True) l k) := by
    intro k hk l
    rw [hp.reaches_iff (hc k hk)]
    constructor
    · rintro ⟨hl, ⟨-, hkl⟩, hlk⟩
      exact ⟨hp.contains hl, hkl, ((hp.reaches_iff hl).mp hlk).2⟩
    · rintro ⟨-, hkl, hlk⟩
      -- the way to `l` keeps to the part, so the way back starts in it
      have hl := hp.contains_of_way (hc k hk) hkl
      exact ⟨hl, ⟨hl, hkl⟩, (hp.reaches_iff hl).mpr ⟨hc k hk, hlk⟩⟩
  have inner : (∃ k ∈ c.members, ∃ l ∈ c.members, DependsBy part partEdges (fun _ => True) k l) ↔
      ∃ k ∈ c.members, ∃ l ∈ c.members, DependsBy bindings edges (fun _ => True) k l :=
    exists_congr fun k => and_congr_right fun hk =>
      exists_congr fun l => and_congr_right fun _ => hp.depends_iff (hc k hk)
  have handles : ∀ d : DeferredEdge, (d.source ∈ c.members ∧ d.target ∈ c.members ∧
        ∃ e ∈ partEdges, e.access ≠ .canonical ∧ e.source = d.source ∧ e.target = d.target) ↔
      (d.source ∈ c.members ∧ d.target ∈ c.members ∧
        ∃ e ∈ edges, e.access ≠ .canonical ∧ e.source = d.source ∧ e.target = d.target) := by
    refine fun d => and_congr_right fun hd => and_congr_right fun _ => exists_congr fun e => ?_
    constructor
    · rintro ⟨he, h⟩
      exact ⟨(hp.mem_edges e (h.2.1 ▸ hc _ hd)).mp he, h⟩
    · rintro ⟨he, h⟩
      exact ⟨(hp.mem_edges e (h.2.1 ▸ hc _ hd)).mpr he, h⟩
  constructor
  · intro h
    exact
      { mem_members := fun k hk l => (h.mem_members k hk l).trans (tied k hk l)
        inner := inner.mp h.inner
        broken := fun k hk hloop => h.broken k hk ((hp.around_iff (hc k hk)).mpr hloop)
        increasing := h.increasing
        mem_deferredEdges := fun d => (h.mem_deferredEdges d).trans (handles d) }
  · intro h
    exact
      { mem_members := fun k hk l => (h.mem_members k hk l).trans (tied k hk l).symm
        inner := inner.mpr h.inner
        broken := fun k hk hloop => h.broken k hk ((hp.around_iff (hc k hk)).mp hloop)
        increasing := h.increasing
        mem_deferredEdges := fun d => (h.mem_deferredEdges d).trans (handles d).symm }

/-- A handle of the part is deferred in it exactly if it is deferred in the whole. -/
theorem exists_isBroken_iff {d : DeferredEdge} (hd : part.contains d.source = true) :
    (∃ c, IsBroken part partEdges c ∧ c.unordered = c ∧ d ∈ c.deferredEdges) ↔
      ∃ c, IsBroken bindings edges c ∧ c.unordered = c ∧ d ∈ c.deferredEdges := by
  constructor
  · rintro ⟨c, hc, same, hdc⟩
    have bound : ∀ k ∈ c.members, part.contains k = true := fun k hk =>
      ((hc.mem_members k hk k).mp hk).1
    exact ⟨c, (hp.isBroken_iff bound).mp hc, same, hdc⟩
  · rintro ⟨c, hc, same, hdc⟩
    -- the source of the handle leads to all members, so they are of the part too
    have member : d.source ∈ c.members := ((hc.mem_deferredEdges d).mp hdc).1
    have bound : ∀ k ∈ c.members, part.contains k = true := fun k hk =>
      hp.contains_of_way hd ((hc.mem_members d.source member k).mp hk).2.1
    exact ⟨c, (hp.isBroken_iff bound).mpr hc, same, hdc⟩

end Cycles

/-! ### Initialisation of a part -/

section Initialization

variable {partIgnored ignored : SortedSet DeferredEdge}
  (hi : ∀ e ∈ partEdges, part.contains e.source = true →
    (e.ends ∈ partIgnored.toList ↔ e.ends ∈ ignored.toList))

include hi

theorem leadsTo_iff (hk : part.contains k = true) :
    LeadsTo partEdges partIgnored k l ↔ LeadsTo edges ignored k l := by
  constructor
  · rintro ⟨e, he, hcounts, rfl, rfl⟩
    exact ⟨e, (hp.mem_edges e hk).mp he, by rwa [← hi e he hk], rfl, rfl⟩
  · rintro ⟨e, he, hcounts, rfl, rfl⟩
    have he := (hp.mem_edges e hk).mpr he
    exact ⟨e, he, by rwa [hi e he hk], rfl, rfl⟩

omit hi in
theorem contains_of_leadsTo (hk : part.contains k = true) (h : LeadsTo partEdges partIgnored k l) :
    part.contains l = true := by
  obtain ⟨e, he, -, rfl, rfl⟩ := h
  exact hp.closed e he hk

omit hi in
theorem scoped_iff (hk : part.contains k = true) : Scoped part k ↔ Scoped bindings k :=
  exists_congr fun _ => and_congr_left' (hp.get?_iff hk)

/-- A scoped key of the part needs what it needs in the whole. -/
theorem needsScoped_iff (hk : part.contains k = true) :
    NeedsScoped part partEdges partIgnored k l ↔ NeedsScoped bindings edges ignored k l := by
  have through : ∀ a c, part.contains a = true →
      (LeadsThrough part partEdges partIgnored a c ↔ LeadsThrough bindings edges ignored a c) := by
    intro a c ha
    rw [LeadsThrough, LeadsThrough, hp.leadsTo_iff hi ha]
    refine and_congr_right fun h => exists_congr fun _ => and_congr_left' (hp.get?_iff ?_)
    exact hp.contains_of_leadsTo ha ((hp.leadsTo_iff hi ha).mpr h)
  constructor
  · rintro ⟨hks, hl, hne, c, hkc, hcl⟩
    obtain ⟨hc, way⟩ := reflTransGen_of_closed (P := (part.contains · = true))
      (fun a c ha h => ⟨hp.contains_of_leadsTo ha h.1, (through a c ha).mp h⟩) hk hkc
    have hlp := hp.contains_of_leadsTo hc hcl
    exact ⟨(hp.scoped_iff hk).mp hks, (hp.scoped_iff hlp).mp hl, hne, c, way,
      (hp.leadsTo_iff hi hc).mp hcl⟩
  · rintro ⟨hks, hl, hne, c, hkc, hcl⟩
    obtain ⟨hc, way⟩ := reflTransGen_of_closed (P := (part.contains · = true))
      (fun a c ha h => ⟨hp.contains_of_leadsTo ha ((through a c ha).mpr h).1, (through a c ha).mpr h⟩)
      hk hkc
    have hcl := (hp.leadsTo_iff hi hc).mpr hcl
    have hlp := hp.contains_of_leadsTo hc hcl
    exact ⟨(hp.scoped_iff hk).mpr hks, (hp.scoped_iff hlp).mpr hl, hne, c, way, hcl⟩

/-- The jobs of the part are jobs of the whole. -/
theorem jobs_subset (hk : OwnKeys bindings) :
    ∀ job ∈ (InitProblem.ofGraph (.ofEdges part partEdges partIgnored)).jobs,
      job ∈ (InitProblem.ofGraph (.ofEdges bindings edges ignored)).jobs := by
  have own : OwnKeys part := fun k b hb => hk k b (hp.get? k b hb)
  intro job hjob
  obtain ⟨k, hkey, rfl⟩ := List.mem_map.mp hjob
  have hscoped := (InitGraph.mem_scopedKeys own).mp hkey
  obtain ⟨b, hb, -⟩ := id hscoped
  have bound : part.contains k = true := SortedMap.contains_iff.mpr ⟨b, hb⟩
  have whole := (hp.scoped_iff bound).mp hscoped
  have needs : (InitGraph.ofEdges part partEdges partIgnored).needs k =
      (InitGraph.ofEdges bindings edges ignored).needs k := SortedSet.ext_mem fun l => by
    rw [InitGraph.mem_needs hscoped, InitGraph.mem_needs whole, hp.needsScoped_iff hi bound]
  have site : (InitGraph.ofEdges part partEdges partIgnored).site k =
      (InitGraph.ofEdges bindings edges ignored).site k := by
    simp only [InitGraph.site, InitGraph.ofEdges, hb, hp.get? k b hb]
  rw [needs, site]
  exact List.mem_map.mpr ⟨k, (InitGraph.mem_scopedKeys hk).mpr whole, rfl⟩

/-- **The scoped keys of the part are initialised in the order of the whole.** -/
theorem scopedOrder_eq_filter (hk : OwnKeys bindings)
    (ha : ∀ k, ¬ TransGen (NeedsScoped bindings edges ignored) k k) :
    scopedInitializationOrder part partEdges partIgnored =
      (scopedInitializationOrder bindings edges ignored).filter (part.contains ·) := by
  have own : OwnKeys part := fun k b hb => hk k b (hp.get? k b hb)
  have schedule := InitProblem.order_eq_filter (wellPosed_ofGraph partEdges partIgnored own)
    (wellPosed_ofGraph edges ignored hk) (hp.jobs_subset hi hk) (by rwa [needs_ofGraph hk])
  refine schedule.trans (List.filter_congr fun k hmem => ?_)
  have held : Scoped bindings k := ((initialized hk).mem_iff k).mp hmem
  rw [Bool.eq_iff_iff, decide_eq_true_iff, keys_ofGraph, InitGraph.mem_scopedKeys own]
  refine ⟨fun ⟨b, hb, _⟩ => SortedMap.contains_iff.mpr ⟨b, hb⟩, fun bound => ?_⟩
  exact (hp.scoped_iff bound).mpr held

end Initialization

end ClosedPart

end Wiring
