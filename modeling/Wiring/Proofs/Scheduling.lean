import Mathlib.Data.Fintype.Card
import Mathlib.Data.Set.Finite.Basic
import Mathlib.Logic.Relation
import Wiring.Initialization
import Wiring.Proofs.SortedMap
import Wiring.Proofs.SortedSet

/-!
# Initialisation step by step

Each step initialises the first of the keys that are ready and counts down what waits for it.  The
counts are always the numbers of needs not yet met (`Progress.Consistent`), so none is counted below
zero, and a key is ready exactly when its needs are met.  In the end every key is listed once, and
if nothing needs itself in a circle the list is the least of those that put needs first
(`order_least`).
-/

namespace Wiring

open Std Relation

/-- Among finitely many things that each lead to one of them, something leads back to itself. -/
theorem exists_transGen_self {α : Type} {r : α → α → Prop} {l : List α} (hne : l ≠ [])
    (h : ∀ a ∈ l, ∃ b ∈ l, r a b) : ∃ a, TransGen r a a := by
  by_contra hnone
  let behind (a b : { a // a ∈ l }) : Prop := TransGen r b.1 a.1
  have : IsTrans _ behind := ⟨fun _ _ _ hab hbc => hbc.trans hab⟩
  have : Std.Irrefl behind := ⟨fun a ha => hnone ⟨a.1, ha⟩⟩
  have : Finite { a // a ∈ l } := (List.finite_toSet l).to_subtype
  have hend : ∀ a : { a // a ∈ l }, False := fun a => by
    induction a using (Finite.wellFounded_of_trans_of_irrefl behind).induction with
    | _ a ih =>
        obtain ⟨b, hb, hab⟩ := h a.1 a.2
        exact ih ⟨b, hb⟩ (.single hab)
  obtain ⟨a, ha⟩ := List.exists_mem_of_ne_nil l hne
  exact hend ⟨a, ha⟩

/-- Of a list without repetitions, what stands before an element stands in front of it. -/
theorem mem_front_of_sublist {α : Type} {front back : List α} {a b : α}
    (hn : (front ++ a :: back).Nodup) (h : [b, a].Sublist (front ++ a :: back)) : b ∈ front := by
  obtain ⟨-, htail, -⟩ := List.nodup_append.mp hn
  have hback : a ∉ back := (List.nodup_cons.mp htail).1
  have hpair : (front ++ a :: back).Pairwise fun x y => y = a → x ∈ front := by
    refine List.pairwise_append.mpr ⟨List.pairwise_of_forall_mem_list fun x hx _ _ _ => hx,
      List.pairwise_cons.mpr ⟨fun y hy heq => absurd (heq ▸ hy) hback, ?_⟩, fun x hx _ _ _ => hx⟩
    exact List.pairwise_of_forall_mem_list fun _ _ y hy heq => absurd (heq ▸ hy) hback
  exact List.rel_of_pairwise_cons (hpair.sublist h) (.head _) rfl

theorem sublist_of_mem_front {α : Type} {front back : List α} {a b : α} (h : b ∈ front) :
    [b, a].Sublist (front ++ a :: back) :=
  (List.singleton_sublist.mpr h).append (List.singleton_sublist.mpr (.head _))

/-- Before what stands before an element stands before it. -/
theorem sublist_pair_trans {α : Type} {l : List α} {a b c : α} (hn : l.Nodup)
    (hcb : [c, b].Sublist l) (hba : [b, a].Sublist l) : [c, a].Sublist l := by
  obtain ⟨front, back, rfl⟩ := List.append_of_mem (hba.subset (.tail _ (.head _)))
  obtain ⟨first, middle, rfl⟩ := List.append_of_mem (mem_front_of_sublist hn hba)
  rw [List.append_assoc, List.cons_append] at hn hcb
  exact sublist_of_mem_front (List.mem_append_left _ (mem_front_of_sublist hn hcb))

/-- A list of all keys of a kind, each once and after those it needs. -/
structure LinearExtension (kind : TypeKey → Prop) (needs : TypeKey → TypeKey → Prop)
    (l : List TypeKey) : Prop where
  nodup : l.Nodup
  mem_iff : ∀ k, k ∈ l ↔ kind k
  needs_first : ∀ a b, needs a b → [b, a].Sublist l

namespace InitProblem

/-- The needs of a job that are not met. -/
def missing (done : List TypeKey) (job : InitJob) : List TypeKey :=
  job.needs.toList.filter (· ∉ done)

theorem missing_eq_nil_iff {done : List TypeKey} {job : InitJob} :
    missing done job = [] ↔ ∀ k ∈ job.needs.toList, k ∈ done := by
  simp [missing]

/-- A key that is initialised is missing no more. -/
theorem length_missing_append {done : List TypeKey} {x : TypeKey} (hx : x ∉ done) (job : InitJob) :
    (missing (done ++ [x]) job).length =
      (missing done job).length - if x ∈ job.needs.toList then 1 else 0 := by
  have herase : missing (done ++ [x]) job = (missing done job).erase x := by
    have hnodup : (missing done job).Nodup := job.needs.nodup_toList.filter _
    rw [hnodup.erase_eq_filter, missing, missing, List.filter_filter]
    refine List.filter_congr fun k _ => ?_
    simp [and_comm, bne, beq_eq_decide]
  have hmem : x ∈ missing done job ↔ x ∈ job.needs.toList := by simp [missing, hx]
  rw [herase, List.length_erase, if_congr hmem rfl rfl]
  split <;> simp

/-- The jobs stand for different keys, whose places `site` tells, and need other jobs' keys. -/
structure WellPosed (p : InitProblem) (site : TypeKey → InitSite) : Prop where
  distinct : (p.jobs.map (·.site.key)).Nodup
  sited : ∀ job ∈ p.jobs, site job.site.key = job.site
  needs_mem : ∀ job ∈ p.jobs, ∀ k ∈ job.needs.toList, k ∈ p.jobs.map (·.site.key)

/-- A key can be initialised once all in `done` are. -/
def Ready (p : InitProblem) (done : List TypeKey) (site : InitSite) : Prop :=
  ∃ job ∈ p.jobs, job.site = site ∧ site.key ∉ done ∧ ∀ k ∈ job.needs.toList, k ∈ done

/-- A key needs another one. -/
def Needs (p : InitProblem) (a b : TypeKey) : Prop :=
  ∃ job ∈ p.jobs, job.site.key = a ∧ b ∈ job.needs.toList

variable {p : InitProblem} {site : TypeKey → InitSite}

theorem WellPosed.job_unique (hp : p.WellPosed site) {job other : InitJob} (hj : job ∈ p.jobs)
    (ho : other ∈ p.jobs) (h : job.site.key = other.site.key) : job = other :=
  List.inj_on_of_nodup_map hp.distinct hj ho h

theorem WellPosed.key_site (hp : p.WellPosed site) {k : TypeKey}
    (hk : k ∈ p.jobs.map (·.site.key)) : (site k).key = k := by
  obtain ⟨job, hj, rfl⟩ := List.mem_map.mp hk
  rw [hp.sited job hj]

/-! ### Counting down -/

/-- The state in which `next` has just been taken. -/
def Progress.begin (s : Progress) (next : InitSite) : Progress where
  pending := s.pending.erase next.key
  ready := s.ready.erase next
  done := s.done ++ [next.key]

theorem step_of_ready {s : Progress} {next : InitSite} {rest : List InitSite}
    (h : s.ready.toList = next :: rest) :
    p.step s = (p.dependents next.key).foldl settle (s.begin next) := by
  rw [step, h]
  rfl

@[simp] theorem done_settle (s : Progress) (w : InitSite) : (settle s w).done = s.done := by
  rw [settle]
  split <;> rfl

theorem get?_settle (s : Progress) (w : InitSite) (k : TypeKey) : (settle s w).pending.get? k =
    if k = w.key then (s.pending.get? k).map (· - 1) else s.pending.get? k := by
  rw [settle]
  split
  · rename_i hnone
    split
    · simp_all
    · rfl
  · rename_i count hcount
    rw [SortedMap.get?_insert]
    split
    · simp_all
    · rfl

theorem mem_ready_settle {s : Progress} {w site : InitSite} : site ∈ (settle s w).ready.toList ↔
    site ∈ s.ready.toList ∨ site = w ∧ ∃ n, s.pending.get? w.key = some n ∧ n - 1 = 0 := by
  rw [settle]
  split
  · simp_all
  · rename_i count hcount
    dsimp only
    split <;> simp_all [or_comm]

theorem done_foldl_settle (ws : List InitSite) (s : Progress) :
    (ws.foldl settle s).done = s.done :=
  List.foldlRecOn (motive := fun t : Progress => t.done = s.done) ws settle rfl
    fun t ht w _ => (done_settle t w).trans ht

/-- Each key met is counted down once. -/
theorem get?_foldl_settle : ∀ (ws : List InitSite) (s : Progress) (k : TypeKey),
    (ws.map (·.key)).Nodup → (ws.foldl settle s).pending.get? k =
      if k ∈ ws.map (·.key) then (s.pending.get? k).map (· - 1) else s.pending.get? k
  | [], _, _, _ => by simp
  | w :: ws, s, k, h => by
      obtain ⟨hw, hws⟩ := List.nodup_cons.mp h
      rw [List.foldl_cons, get?_foldl_settle ws _ k hws, get?_settle]
      by_cases hk : k = w.key
      · subst hk
        simp [hw]
      · simp [hk]

/-- The keys met for the last time become ready. -/
theorem mem_ready_foldl_settle {site : InitSite} : ∀ (ws : List InitSite) (s : Progress),
    (ws.map (·.key)).Nodup → (site ∈ (ws.foldl settle s).ready.toList ↔
      site ∈ s.ready.toList ∨ site ∈ ws ∧ ∃ n, s.pending.get? site.key = some n ∧ n - 1 = 0)
  | [], _, _ => by simp
  | w :: ws, s, h => by
      obtain ⟨hw, hws⟩ := List.nodup_cons.mp h
      rw [List.foldl_cons, mem_ready_foldl_settle ws _ hws, mem_ready_settle, get?_settle,
        List.mem_cons]
      by_cases hs : site = w
      · subst hs
        have : site ∉ ws := fun h => hw (List.mem_map_of_mem h)
        simp [this]
      · have : site ∈ ws → site.key ≠ w.key := fun h hk =>
          hw (List.mem_map.mpr ⟨site, h, hk⟩)
        by_cases hm : site ∈ ws <;> simp_all

theorem mem_dependents {x : TypeKey} {site : InitSite} :
    site ∈ p.dependents x ↔ ∃ job ∈ p.jobs, x ∈ job.needs.toList ∧ job.site = site := by
  simp [dependents, SortedSet.contains_iff, and_assoc]

theorem WellPosed.nodup_dependents (hp : p.WellPosed site) (x : TypeKey) :
    ((p.dependents x).map (·.key)).Nodup := by
  rw [dependents, List.map_map]
  exact hp.distinct.sublist (List.filter_sublist.map _)

/-! ### What a step preserves -/

/-- The state counts the needs not yet met, and lists what is ready. -/
structure Consistent (p : InitProblem) (s : Progress) : Prop where
  nodup : s.done.Nodup
  known : ∀ k ∈ s.done, k ∈ p.jobs.map (·.site.key)
  pending : ∀ k n, s.pending.get? k = some n ↔
    k ∉ s.done ∧ ∃ job ∈ p.jobs, job.site.key = k ∧ (missing s.done job).length = n
  ready : ∀ site, site ∈ s.ready.toList ↔ p.Ready s.done site

theorem consistent_initial (hp : p.WellPosed site) : p.Consistent p.initial where
  nodup := .nil
  known := by simp [initial]
  pending := by
    intro k n
    have hdistinct : ((p.jobs.map fun job => (job.site.key, job.needs.toList.length)).map
        (·.1)).Nodup := by
      rw [List.map_map]
      exact hp.distinct
    simp [initial, SortedMap.get?_ofList hdistinct, missing]
  ready := by
    intro site
    simp only [initial, SortedSet.mem_ofList, List.mem_map, List.mem_filter, SortedSet.isEmpty_iff,
      Ready, List.not_mem_nil, not_false_eq_true, true_and, and_assoc, imp_false]
    exact exists_congr fun job => and_congr_right fun _ => and_comm

namespace Consistent

variable {s : Progress} {next : InitSite} {rest : List InitSite}

theorem ready_next (hs : p.Consistent s) (h : s.ready.toList = next :: rest) :
    p.Ready s.done next :=
  (hs.ready next).mp (h ▸ .head _)

theorem next_not_done (hs : p.Consistent s) (h : s.ready.toList = next :: rest) :
    next.key ∉ s.done := by
  obtain ⟨_, _, _, hnew, _⟩ := hs.ready_next h
  exact hnew

/-- **What is counted down has a need left.** -/
theorem solvent (hp : p.WellPosed site) (hs : p.Consistent s) (h : s.ready.toList = next :: rest)
    {front back : List InitSite} {waiting : InitSite}
    (hsplit : p.dependents next.key = front ++ waiting :: back) :
    (front.foldl settle (s.begin next)).pending.get? waiting.key ≠ some 0 := by
  have hnodup := hp.nodup_dependents next.key
  rw [hsplit, List.map_append, List.map_cons, List.nodup_append] at hnodup
  have hfront : waiting.key ∉ front.map (·.key) := fun hw =>
    hnodup.2.2 _ hw _ (.head _) rfl
  rw [get?_foldl_settle _ _ _ hnodup.1, if_neg hfront, Progress.begin, SortedMap.get?_erase]
  split
  · simp
  · intro hzero
    obtain ⟨-, job, hj, hkey, hlength⟩ := (hs.pending _ _).mp hzero
    obtain ⟨other, ho, hneed, rfl⟩ := mem_dependents.mp (hsplit ▸ List.mem_append_right _ (.head _))
    obtain rfl := hp.job_unique hj ho hkey
    exact hs.next_not_done h
      (missing_eq_nil_iff.mp (List.eq_nil_of_length_eq_zero hlength) _ hneed)

/-- The counts after a step. -/
theorem pending_step (hp : p.WellPosed site) (hs : p.Consistent s)
    (h : s.ready.toList = next :: rest) (k : TypeKey) (n : Nat) :
    (p.step s).pending.get? k = some n ↔ k ∉ s.done ++ [next.key] ∧
      ∃ job ∈ p.jobs, job.site.key = k ∧ (missing (s.done ++ [next.key]) job).length = n := by
  have hnew := hs.next_not_done h
  rw [step_of_ready h, get?_foldl_settle _ _ _ (hp.nodup_dependents _), Progress.begin]
  by_cases hk : k = next.key
  · subst hk
    simp [SortedMap.get?_erase]
  · simp only [SortedMap.get?_erase, hk, if_false, List.mem_append, List.mem_singleton, or_false,
      length_missing_append hnew]
    -- a key is counted down if its job needs the key that was taken
    have hwaits : ∀ job ∈ p.jobs, job.site.key = k →
        (k ∈ (p.dependents next.key).map (·.key) ↔ next.key ∈ job.needs.toList) := by
      rintro job hj rfl
      simp only [List.mem_map, mem_dependents]
      constructor
      · rintro ⟨_, ⟨other, ho, hneed, rfl⟩, hkey⟩
        exact hp.job_unique ho hj hkey ▸ hneed
      · exact fun hneed => ⟨_, ⟨job, hj, hneed, rfl⟩, rfl⟩
    split
    · rename_i hw
      simp only [Option.map_eq_some_iff, hs.pending]
      constructor
      · rintro ⟨_, ⟨hdone, job, hj, hkey, rfl⟩, rfl⟩
        exact ⟨hdone, job, hj, hkey, by rw [if_pos ((hwaits job hj hkey).mp hw)]⟩
      · rintro ⟨hdone, job, hj, hkey, rfl⟩
        exact ⟨_, ⟨hdone, job, hj, hkey, rfl⟩, by rw [if_pos ((hwaits job hj hkey).mp hw)]⟩
    · rename_i hw
      rw [hs.pending]
      refine and_congr_right fun _ => exists_congr fun job => and_congr_right fun hj =>
        and_congr_right fun hkey => ?_
      rw [if_neg (mt (hwaits job hj hkey).mpr hw), Nat.sub_zero]

/-- What is ready after a step. -/
theorem ready_step (hp : p.WellPosed site) (hs : p.Consistent s)
    (h : s.ready.toList = next :: rest) (other : InitSite) :
    other ∈ (p.step s).ready.toList ↔ p.Ready (s.done ++ [next.key]) other := by
  have hnew := hs.next_not_done h
  rw [step_of_ready h, mem_ready_foldl_settle _ _ (hp.nodup_dependents _), Progress.begin]
  simp only [SortedSet.mem_erase, SortedMap.get?_erase, hs.ready, mem_dependents]
  constructor
  · rintro (⟨⟨job, hj, rfl, hdone, hneeds⟩, hne⟩ | ⟨⟨job, hj, hneed, rfl⟩, n, hn, hzero⟩)
    · refine ⟨job, hj, rfl, ?_, fun k hk => List.mem_append_left _ (hneeds k hk)⟩
      obtain ⟨taken, ht, rfl, -⟩ := hs.ready_next h
      simp only [List.mem_append, List.mem_singleton, not_or]
      exact ⟨hdone, fun hkey => hne (congrArg _ (hp.job_unique hj ht hkey))⟩
    · split at hn
      · cases hn
      · rename_i hkey
        obtain ⟨hdone, other, ho, hother, rfl⟩ := (hs.pending _ _).mp hn
        obtain rfl := hp.job_unique ho hj hother
        refine ⟨other, ho, rfl, by simp [hdone, hkey], missing_eq_nil_iff.mp ?_⟩
        refine List.eq_nil_of_length_eq_zero ?_
        rw [length_missing_append hnew, if_pos hneed, hzero]
  · rintro ⟨job, hj, rfl, hdone, hneeds⟩
    simp only [List.mem_append, List.mem_singleton, not_or] at hdone
    by_cases hneed : next.key ∈ job.needs.toList
    · refine .inr ⟨⟨job, hj, hneed, rfl⟩, (missing s.done job).length, ?_, ?_⟩
      · rw [if_neg hdone.2]
        exact (hs.pending _ _).mpr ⟨hdone.1, job, hj, rfl, rfl⟩
      · have hmet := congrArg List.length (missing_eq_nil_iff.mpr hneeds)
        rwa [length_missing_append hnew, if_pos hneed] at hmet
    · refine .inl ⟨⟨job, hj, rfl, hdone.1, fun k hk => ?_⟩, fun heq => hdone.2 (heq ▸ rfl)⟩
      rcases List.mem_append.mp (hneeds k hk) with hk' | hk'
      · exact hk'
      · exact absurd (List.mem_singleton.mp hk' ▸ hk) hneed

theorem done_step (h : s.ready.toList = next :: rest) : (p.step s).done = s.done ++ [next.key] := by
  rw [step_of_ready h, done_foldl_settle]
  rfl

/-- **A step keeps the counts right.** -/
theorem step (hp : p.WellPosed site) (hs : p.Consistent s) : p.Consistent (p.step s) := by
  cases h : s.ready.toList with
  | nil => rwa [InitProblem.step, h]
  | cons next rest =>
      have hdone := done_step (p := p) h
      obtain ⟨job, hj, hsite, -⟩ := hs.ready_next h
      refine ⟨?_, ?_, hdone ▸ hs.pending_step hp h, hdone ▸ hs.ready_step hp h⟩
      · rw [hdone, List.nodup_append]
        exact ⟨hs.nodup, List.nodup_singleton _, fun a ha b hb =>
          fun hab => hs.next_not_done h (List.mem_singleton.mp hb ▸ hab ▸ ha)⟩
      · rw [hdone]
        refine List.forall_mem_append.mpr ⟨hs.known, fun k hk => ?_⟩
        exact List.mem_map.mpr ⟨job, hj, by rw [hsite, List.mem_singleton.mp hk]⟩

end Consistent

/-! ### The whole run -/

/-- The state after a number of steps. -/
def after (p : InitProblem) (n : Nat) : Progress := n.repeat p.step p.initial

theorem after_succ (p : InitProblem) (n : Nat) : p.after (n + 1) = p.step (p.after n) := rfl

theorem consistent_after (hp : p.WellPosed site) : ∀ n, p.Consistent (p.after n)
  | 0 => consistent_initial hp
  | n + 1 => (consistent_after hp n).step hp

/-- As long as something is ready, each step initialises one key. -/
theorem ready_eq_nil_or_length (p : InitProblem) :
    ∀ n, (p.after n).ready.toList = [] ∨ (p.after n).done.length = n
  | 0 => .inr rfl
  | n + 1 => by
      rw [after_succ]
      cases h : (p.after n).ready.toList with
      | nil => exact .inl (by rw [step, h, h])
      | cons next rest =>
          have hlength := (p.ready_eq_nil_or_length n).resolve_left (by simp [h])
          exact .inr (by rw [Consistent.done_step h, List.length_append, hlength]; rfl)

theorem consistent_final (hp : p.WellPosed site) : p.Consistent p.final := consistent_after hp _

theorem ready_final (hp : p.WellPosed site) : p.final.ready.toList = [] := by
  refine (p.ready_eq_nil_or_length p.jobs.length).elim id fun hlength => ?_
  by_contra hready
  obtain ⟨next, rest, hready⟩ := List.exists_cons_of_ne_nil hready
  -- a further step would initialise more keys than there are jobs
  have hs := (consistent_final hp).step hp
  have hle := (List.subperm_of_subset hs.nodup hs.known).length_le
  rw [Consistent.done_step hready, List.length_append, List.length_singleton,
    List.length_map] at hle
  exact absurd hle (by rw [show p.final.done.length = _ from hlength]; omega)

/-- The places of the keys that are never ready. -/
def stuck (p : InitProblem) : SortedSet InitSite :=
  .ofList ((p.jobs.filter fun job => p.final.pending.contains job.site.key).map (·.site))

theorem order_eq (p : InitProblem) : p.order = p.final.done ++ p.stuck.toList.map (·.key) := rfl

theorem mem_stuck (hp : p.WellPosed site) {place : InitSite} : place ∈ p.stuck.toList ↔
    ∃ job ∈ p.jobs, job.site = place ∧ place.key ∉ p.final.done := by
  simp only [stuck, SortedSet.mem_ofList, List.mem_map, List.mem_filter, SortedMap.contains_iff,
    (consistent_final hp).pending]
  constructor
  · rintro ⟨job, ⟨hj, _, hdone, _⟩, rfl⟩
    exact ⟨job, hj, rfl, hdone⟩
  · rintro ⟨job, hj, rfl, hdone⟩
    exact ⟨job, ⟨hj, _, hdone, job, hj, rfl, rfl⟩, rfl⟩

theorem mem_order (hp : p.WellPosed site) {k : TypeKey} :
    k ∈ p.order ↔ k ∈ p.jobs.map (·.site.key) := by
  simp only [order_eq, List.mem_append, List.mem_map, mem_stuck hp]
  constructor
  · rintro (hk | ⟨_, ⟨job, hj, rfl, -⟩, rfl⟩)
    · exact List.mem_map.mp ((consistent_final hp).known k hk)
    · exact ⟨job, hj, rfl⟩
  · rintro ⟨job, hj, rfl⟩
    by_cases hdone : job.site.key ∈ p.final.done
    · exact .inl hdone
    · exact .inr ⟨_, ⟨job, hj, rfl, hdone⟩, rfl⟩

theorem nodup_order (hp : p.WellPosed site) : p.order.Nodup := by
  rw [order_eq]
  refine List.nodup_append.mpr ⟨(consistent_final hp).nodup, ?_, ?_⟩
  · refine List.Nodup.map_on (fun a ha b hb hab => ?_) (SortedSet.nodup_toList _)
    obtain ⟨job, hj, rfl, -⟩ := (mem_stuck hp).mp ha
    obtain ⟨other, ho, rfl, -⟩ := (mem_stuck hp).mp hb
    rw [hp.job_unique hj ho hab]
  · rintro k hk _ hl rfl
    obtain ⟨place, hplace, rfl⟩ := List.mem_map.mp hl
    obtain ⟨-, -, -, hdone⟩ := (mem_stuck hp).mp hplace
    exact hdone hk

/-- If nothing needs itself in a circle, every key is ready at some time. -/
theorem order_eq_done (hp : p.WellPosed site) (ha : ∀ k, ¬ TransGen p.Needs k k) :
    p.order = p.final.done := by
  by_contra hne
  have hstuck : p.stuck.toList.map (·.key) ≠ [] := fun h =>
    hne (by rw [order_eq, h, List.append_nil])
  obtain ⟨k, hk⟩ := exists_transGen_self (r := p.Needs) hstuck fun k hk => by
    obtain ⟨_, hplace, rfl⟩ := List.mem_map.mp hk
    obtain ⟨job, hj, rfl, hdone⟩ := (mem_stuck hp).mp hplace
    -- the job is not ready, so it needs a key that is stuck as well
    have hready : ¬ p.Ready p.final.done job.site := fun h => by
      simpa [ready_final hp] using ((consistent_final hp).ready job.site).mpr h
    obtain ⟨need, hneed, hmissing⟩ : ∃ k ∈ job.needs.toList, k ∉ p.final.done := by
      by_contra hmet
      exact hready ⟨job, hj, rfl, hdone, by simpa using hmet⟩
    obtain ⟨other, ho, rfl⟩ := List.mem_map.mp (hp.needs_mem job hj need hneed)
    exact ⟨_, List.mem_map.mpr ⟨_, (mem_stuck hp).mpr ⟨other, ho, rfl, hmissing⟩, rfl⟩,
      job, hj, rfl, hneed⟩
  exact ha k hk

/-! ### The least order -/

/-- Each key of a list is the first of those that are ready after the keys in front of it. -/
def Greedy (p : InitProblem) (site : TypeKey → InitSite) (l : List TypeKey) : Prop :=
  ∀ front k back, l = front ++ k :: back → p.Ready front (site k) ∧
    ∀ other, p.Ready front other → other = site k ∨ compare (site k) other = .lt

theorem greedy_after (hp : p.WellPosed site) : ∀ n, p.Greedy site (p.after n).done
  | 0 => fun front k back h => by simp [after, initial, Nat.repeat] at h
  | n + 1 => by
      have hs := consistent_after hp n
      rw [after_succ]
      cases hready : (p.after n).ready.toList with
      | nil => rw [step, hready]; exact greedy_after hp n
      | cons next rest =>
          rw [Consistent.done_step hready]
          intro front k back h
          rcases List.eq_nil_or_concat back with rfl | ⟨back, last, rfl⟩
          · obtain ⟨rfl, hk⟩ := List.append_inj' h rfl
            obtain rfl : next.key = k := by simpa using hk
            obtain ⟨job, hj, rfl, -⟩ := hs.ready_next hready
            rw [hp.sited job hj]
            refine ⟨hs.ready_next hready, fun other hother => ?_⟩
            have hmem := hready ▸ (hs.ready other).mpr hother
            have hsorted := hready ▸ (p.after n).ready.increasing
            exact (List.mem_cons.mp hmem).imp_right ((List.pairwise_cons.mp hsorted).1 other)
          · rw [List.concat_eq_append, ← List.cons_append, ← List.append_assoc] at h
            exact greedy_after hp n front k back (List.append_inj' h rfl).1

theorem linearExtension_order (hp : p.WellPosed site) (ha : ∀ k, ¬ TransGen p.Needs k k) :
    LinearExtension (· ∈ p.jobs.map (·.site.key)) p.Needs p.order where
  nodup := nodup_order hp
  mem_iff _ := mem_order hp
  needs_first := by
    rintro _ b ⟨job, hj, rfl, hb⟩
    have hmem := (mem_order hp).mpr (List.mem_map_of_mem (f := (·.site.key)) hj)
    rw [order_eq_done hp ha] at hmem ⊢
    obtain ⟨front, back, hsplit⟩ := List.append_of_mem hmem
    obtain ⟨⟨other, ho, hsite, -, hneeds⟩, -⟩ := greedy_after hp _ front _ back hsplit
    rw [hp.sited job hj] at hsite
    obtain rfl := hp.job_unique ho hj (congrArg _ hsite)
    exact hsplit ▸ sublist_of_mem_front (hneeds b hb)

/-- In a linear extension each key is ready after those in front of it. -/
theorem ready_of_linearExtension (hp : p.WellPosed site) {l : List TypeKey}
    (hl : LinearExtension (· ∈ p.jobs.map (·.site.key)) p.Needs l) {front back : List TypeKey}
    {k : TypeKey} (h : l = front ++ k :: back) : p.Ready front (site k) := by
  subst h
  obtain ⟨job, hj, rfl⟩ := List.mem_map.mp
    ((hl.mem_iff k).mp (List.mem_append_right _ (.head _)))
  rw [hp.sited job hj]
  refine ⟨job, hj, rfl, fun hfront => ?_, fun b hb =>
    mem_front_of_sublist hl.nodup (hl.needs_first _ b ⟨job, hj, rfl, hb⟩)⟩
  exact (List.nodup_append.mp hl.nodup).2.2 _ hfront _ (.head _) rfl

/-- **The order is the least linear extension.** -/
theorem order_least (hp : p.WellPosed site) (ha : ∀ k, ¬ TransGen p.Needs k k) {l : List TypeKey}
    (hl : LinearExtension (· ∈ p.jobs.map (·.site.key)) p.Needs l) :
    l = p.order ∨ List.Lex (fun a b => compare (site a) (site b) = .lt) p.order l := by
  have hgreedy : p.Greedy site p.order := order_eq_done hp ha ▸ greedy_after hp _
  -- of two lists of all keys without repetitions, neither stops short of the other
  have ends : ∀ (l m front rest : List TypeKey) (k : TypeKey), m.Nodup → (∀ x ∈ m, x ∈ l) →
      m = front ++ k :: rest → l ≠ front := by
    rintro l _ front rest k hm hsub rfl rfl
    exact (List.nodup_append.mp hm).2.2 k (hsub k (by simp)) k (.head _) rfl
  suffices ∀ ours theirs front, p.order = front ++ ours → l = front ++ theirs →
      theirs = ours ∨ List.Lex (fun a b => compare (site a) (site b) = .lt) ours theirs from
    this p.order l [] rfl rfl
  intro ours
  induction ours with
  | nil =>
      intro theirs front ho hl'
      cases theirs with
      | nil => exact .inl rfl
      | cons k rest =>
          rw [List.append_nil] at ho
          exact absurd ho (ends _ _ front rest k hl.nodup
            (fun x hx => (mem_order hp).mpr ((hl.mem_iff x).mp hx)) hl')
  | cons k rest ih =>
      intro theirs front ho hl'
      cases theirs with
      | nil =>
          rw [List.append_nil] at hl'
          exact absurd hl' (ends _ _ front rest k (nodup_order hp)
            (fun x hx => (hl.mem_iff x).mpr ((mem_order hp).mp hx)) ho)
      | cons k' rest' =>
          have hready := ready_of_linearExtension hp hl hl'
          rcases (hgreedy front k rest ho).2 _ hready with hsite | hsite
          · obtain rfl : k' = k := by
              rw [← hp.key_site ((hl.mem_iff k').mp (hl' ▸ by simp)), hsite,
                hp.key_site ((mem_order hp).mp (ho ▸ by simp))]
            exact (ih rest' (front ++ [k']) (by simpa using ho) (by simpa using hl')).imp
              (congrArg _) .cons
          · exact .inr (.rel hsite)

end InitProblem

end Wiring
