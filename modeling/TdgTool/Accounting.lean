/-
TdgTool/Accounting.lean

How many nodes a completed run leaves in the graph.

The live roles fall into those of a region (its sink, the nodes of its threads
and its barriers) and the rest.  No role of the rest is ever removed, so their
number is a sum over the callbacks, step by step.  The roles of a region are
created in seven places and removed in one, in an order that depends on the
interleaving; but when the region and its tasks have ended, which of them are
live is a function of the team size and of the number of barriers alone
(`live_region`), and they are counted there.
-/
import TdgTool.Metrics
import TdgTool.Structure
import TdgTool.Times

namespace Tdg

/-! ### Counting callbacks -/

namespace Event

variable (e : Event)

/-- `cb_task_create` of type `ompt_task_initial`. -/
def createsInitial : Bool :=
  match e.call with
  | .taskCreate _ _ .initial => true
  | _ => false

/-- `cb_task_create` of type `ompt_task_explicit`. -/
def createsExplicit : Bool :=
  match e.call with
  | .taskCreate _ _ .explicit => true
  | _ => false

/-- `cb_ext_loop` with `ompt_scope_begin`. -/
def beginsLoop : Bool :=
  match e.call with
  | .extLoop .scopeBegin _ _ _ => true
  | _ => false

/-- `cb_ext_chunk` with `last_chunk = 0`. -/
def opensChunk : Bool :=
  match e.call with
  | .extChunk _ _ _ false => true
  | _ => false

/-- The region that a callback begins, with the number of its threads and of
its barriers. -/
def beginsRegion : Option (RegionId × ℕ × ℕ) :=
  match e.call with
  | .parallelBegin _ r _ teamSize barriers => some (r, teamSize, barriers)
  | _ => none

end Event

/-- The nodes of a region of `n` threads and `k` barriers: the sink, and for
each thread one node before each barrier; a team of more than one thread also
has the barrier nodes. -/
def regionNodes (n k : ℕ) : ℕ := 1 + n + (if 2 ≤ n then k * (1 + n) - n else 0)

/-! ### Roles by region -/

namespace Role

/-- The region a role belongs to. -/
def region : Role → Option RegionId
  | .sink r => some r
  | .imp r _ _ => some r
  | .barrier r _ => some r
  | _ => none

/-- The live roles of a region of `n` threads and `k` barriers that has ended. -/
def ofRegion (r : RegionId) (n k : ℕ) : Finset Role :=
  {.sink r} ∪ (Finset.range n ×ˢ Finset.range (if 2 ≤ n then k else 1)).image
      (fun a => .imp r a.1 a.2) ∪
    (Finset.range (if 2 ≤ n then k else 0)).image (.barrier r)

@[simp] theorem sink_mem_ofRegion {r r' : RegionId} {n k : ℕ} :
    .sink r' ∈ ofRegion r n k ↔ r' = r := by
  simp [ofRegion]

@[simp] theorem imp_mem_ofRegion {r r' : RegionId} {n k t j : ℕ} :
    .imp r' t j ∈ ofRegion r n k ↔ r' = r ∧ t < n ∧ j < if 2 ≤ n then k else 1 := by
  simp [ofRegion]
  tauto

@[simp] theorem barrier_mem_ofRegion {r r' : RegionId} {n k i : ℕ} :
    .barrier r' i ∈ ofRegion r n k ↔ r' = r ∧ i < if 2 ≤ n then k else 0 := by
  simp [ofRegion]
  tauto

theorem card_ofRegion (r : RegionId) {n k : ℕ} (hn : 1 ≤ n) (hk : 1 ≤ k) :
    (ofRegion r n k).card = regionNodes n k := by
  have himp : Function.Injective fun a : ℕ × ℕ => Role.imp r a.1 a.2 := by
    rintro ⟨t, j⟩ ⟨t', j'⟩ h
    simpa using h
  have hbar : Function.Injective (Role.barrier r) := fun i i' h => (Role.barrier.inj h).2
  have hd : Disjoint ({.sink r} : Finset Role) ((Finset.range n ×ˢ
      Finset.range (if 2 ≤ n then k else 1)).image fun a => .imp r a.1 a.2) := by
    simp
  rw [ofRegion, Finset.card_union_of_disjoint, Finset.card_union_of_disjoint hd,
    Finset.card_image_of_injective _ himp, Finset.card_image_of_injective _ hbar]
  · simp only [Finset.card_singleton, Finset.card_product, Finset.card_range, regionNodes]
    split_ifs with h2
    · -- one node of each thread and the barrier, for each of the `k` phases
      obtain ⟨k, rfl⟩ : ∃ j, k = j + 1 := ⟨k - 1, by omega⟩
      have hsub : (k + 1) * (1 + n) = n + (k * n + (k + 1)) := by ring
      rw [hsub, Nat.add_sub_cancel_left]
      ring
    · obtain rfl : n = 1 := by omega
      rfl
  · rw [Finset.disjoint_left]
    intro x hx hx'
    obtain ⟨i, -, rfl⟩ := Finset.mem_image.mp hx'
    simp at hx

end Role

namespace Config

open RoleGraph Tdg.Runtime

variable {c : Config} {env : Env} {es : List Event} {r : RegionId} {x : Role}

/-! ### The regions of a run -/

/-- The regions that a run begins are different ones, and the runtime has what
they were begun with. -/
theorem regions_run (hrun : run env es = some c) :
    ((es.filterMap Event.beginsRegion).map Prod.fst).Nodup ∧
      ∀ r n k, (r, n, k) ∈ es.filterMap Event.beginsRegion ↔ (c.rt.region r).stage ≠ .absent ∧
        (c.rt.region r).teamSize = n ∧ (c.rt.region r).barriers = k := by
  induction es using List.reverseRecOn generalizing c with
  | nil =>
    obtain rfl : Config.init = c := Option.some.inj hrun
    simp [Config.init, Runtime.init]
  | append_singleton es e ih =>
    obtain ⟨c1, hc1, ha, rfl⟩ := run_snoc.mp hrun
    obtain ⟨hnd, hmem⟩ := ih hc1
    rcases hb : e.beginsRegion with - | ⟨r, n, k⟩
    · -- no region is begun
      rw [List.filterMap_append, List.filterMap_cons_none hb, List.filterMap_nil, List.append_nil]
      refine ⟨hnd, fun r n k => ?_⟩
      rw [hmem]
      have hr := regionChange ha r
      simp only [next]
      generalize (c1.rt.apply e).region r = ρ at hr
      cases hr with
      | opened hcall => simp [Event.beginsRegion, hcall] at hb
      | ended _ hopen => simp [hopen]
      | same => rfl
      | reached => rfl
    · rw [List.filterMap_append, List.filterMap_cons_some hb, List.filterMap_nil, List.map_append]
      have hr := regionChange ha r
      have hcall : ∃ parent q, e.call = .parallelBegin parent r q n k := by
        unfold Event.beginsRegion at hb
        split at hb
        · rename_i parent r' q n' k' hcall
          obtain ⟨rfl, rfl, rfl⟩ : r' = r ∧ n' = n ∧ k' = k := by simpa using hb
          exact ⟨parent, q, hcall⟩
        · cases hb
      obtain ⟨parent, q, hcall⟩ := hcall
      have habs : (c1.rt.region r).stage = .absent := by
        obtain ⟨th, call⟩ := e
        obtain rfl : call = _ := hcall
        cases delivers_of_allows ha with
        | parallelBegin _ _ habs => exact habs
      have hnew : r ∉ (es.filterMap Event.beginsRegion).map Prod.fst := by
        intro hr
        obtain ⟨⟨r', n', k'⟩, ha', rfl⟩ := List.mem_map.mp hr
        exact ((hmem r' n' k').mp ha').1 habs
      refine ⟨List.nodup_append.mpr ⟨hnd, by simp, ?_⟩, fun r' n' k' => ?_⟩
      · rintro a ha' b hb' rfl
        obtain rfl : a = r := by simpa using hb'
        exact hnew ha'
      · obtain ⟨th, call⟩ := e
        obtain rfl : call = _ := hcall
        rw [List.mem_append, hmem]
        rcases eq_or_ne r' r with rfl | hrr
        · simp [next, Runtime.apply, habs, eq_comm]
        · simp [next, Runtime.apply, hrr]

/-- In a run whose teams are all formed as requested. -/
theorem requested_run (hrun : run env es = some c) (hteam : ∀ e ∈ es, fullTeam e = true) :
    ∀ r, (c.rt.region r).requested = (c.rt.region r).teamSize := by
  refine (run_induction_of (C := fun _ e => fullTeam e = true)
    (P := fun c => ∀ r, (c.rt.region r).requested = (c.rt.region r).teamSize)
    (fun r => rfl) ?_ ?_ hrun).2
  · intro c e hg ha hfull hP r
    have hr := regionChange ha r
    simp only [next]
    generalize (c.rt.apply e).region r = ρ at hr
    cases hr with
    | opened hcall => simpa [fullTeam, hcall, eq_comm] using hfull
    | _ => exact hP r
  · rintro pre e post rfl - -
    exact hteam e (by simp)

/-! ### The roles of a region that has ended -/

/-- Every thread of a region that has ended has reached all its barriers. -/
theorem ended_team (hS : c.rt.Sound) (hend : (c.rt.region r).stage = .ended)
    (htask : c.rt.TasksDone) {t : ℕ} (ht : t < (c.rt.region r).teamSize) :
    (c.rt.task (.implicit r t)).standing = .done ∧
      (c.rt.task (.implicit r t)).arrived = (c.rt.region r).barriers := by
  have hT := hS.team r
  have hall := hT.done_arrived (hT.ended_done hend) t ht
  have hle := hT.arrived_le_barriers t
  have hk := (hT.sizes (by simp [hend])).2.2
  simp only [Runtime.team] at hall hle
  refine ⟨(htask.2 (.implicit r t) (by simp)).resolve_left fun habs => ?_, by omega⟩
  -- a task that never started has reached nothing
  have hfresh : (c.rt.task (.implicit r t)).arrived = 0 := by rw [hS.fresh habs]
  omega

/-- **The live roles of a region that has ended**, all of whose tasks have
ended. -/
theorem live_region (hg : c.Good) (hend : (c.rt.region r).stage = .ended)
    (hfull : (c.rt.region r).requested = (c.rt.region r).teamSize) (htask : c.rt.TasksDone) :
    c.graph.live x = true ∧ x.region = some r ↔
      x ∈ Role.ofRegion r (c.rt.region r).teamSize (c.rt.region r).barriers := by
  have hT := hg.sound.team r
  obtain ⟨hn, -, hk⟩ := hT.sizes (by simp [hend])
  have hteam := fun {t} => ended_team (t := t) hg.sound hend htask
  have harrivals : (c.rt.region r).arrivals
      = (c.rt.region r).barriers * (c.rt.region r).teamSize := by
    have hsum : ∀ t ∈ Finset.range (c.rt.region r).teamSize,
        (c.rt.team r t).arrived = (c.rt.region r).barriers :=
      fun t ht => (hteam (Finset.mem_range.mp ht)).2
    rw [hT.arrivals_eq, Finset.sum_congr rfl hsum, Finset.sum_const, Finset.card_range,
      smul_eq_mul, mul_comm]
  rw [hg.shaped.live_iff]
  generalize hm : (c.rt.region r).teamSize = m at *
  generalize hb : (c.rt.region r).barriers = k at *
  cases x with
  | sink r' =>
    rw [Role.sink_mem_ofRegion]
    constructor
    · rintro ⟨-, hr⟩
      exact Option.some.inj hr
    · rintro rfl
      exact ⟨⟨by simp [Created, hend], id⟩, rfl⟩
  | imp r' t j =>
    rw [Role.imp_mem_ofRegion]
    constructor
    · rintro ⟨⟨⟨hpres, hj⟩, hdrop⟩, hr⟩
      obtain rfl : r' = r := Option.some.inj hr
      have ht : t < m := hm ▸ hT.thread_lt hpres
      obtain ⟨h1, h2⟩ := hteam ht
      rw [h2, hfull] at hj
      refine ⟨rfl, ht, ?_⟩
      split_ifs with h2m
      · -- the node behind the last barrier is gone
        have hne : j ≠ k := fun hjk => hdrop ⟨h1, by omega, by omega⟩
        omega
      · omega
    · rintro ⟨rfl, ht, hj⟩
      obtain ⟨h1, h2⟩ := hteam ht
      refine ⟨⟨⟨by simp [h1], ?_⟩, ?_⟩, rfl⟩
      · rw [h2, hfull]
        split_ifs at hj with h2m <;> omega
      · rintro ⟨-, hreq, hlast⟩
        rw [hfull] at hreq
        rw [if_pos (by omega)] at hj
        omega
  | barrier r' i =>
    rw [Role.barrier_mem_ofRegion]
    constructor
    · rintro ⟨⟨⟨hreq, hi⟩, -⟩, hr⟩
      obtain rfl : r' = r := Option.some.inj hr
      rw [hfull] at hreq hi
      rw [harrivals] at hi
      rw [if_pos (by omega)]
      exact ⟨rfl, lt_of_mul_lt_mul_right hi (Nat.zero_le m)⟩
    · rintro ⟨rfl, hi⟩
      split_ifs at hi with h2m
      · refine ⟨⟨⟨by omega, ?_⟩, id⟩, rfl⟩
        rw [harrivals, hfull]
        exact Nat.mul_lt_mul_of_pos_right hi (by omega)
      · omega
  | _ => simp [Role.region, Role.ofRegion]

/-! ### The other roles -/

/-- The rule for counting nodes that are never removed: count them where they
are created. -/
theorem countP_order {p : Role → Bool} {f : List Event → ℕ} (h0 : f [] = 0)
    (hsnoc : ∀ es o e, Runtime.allows o e = true → f (es ++ [e]) = f es + (o.newRoles e).countP p)
    (hrun : run env es = some c) : c.graph.order.countP p = f es := by
  induction es using List.reverseRecOn generalizing c with
  | nil =>
    obtain rfl : Config.init = c := Option.some.inj hrun
    exact h0.symm
  | append_singleton es e ih =>
    obtain ⟨c1, hc1, ha, rfl⟩ := run_snoc.mp hrun
    simp only [next, step_order ha, List.countP_append, ih hc1, hsnoc es c1.rt e ha]

/-- What a callback adds to each count. -/
theorem newRoles_counts {o : Runtime} {e : Event} (ha : o.allows e = true) :
    (o.newRoles e).countP (fun x => x.type = .chunkTask) = [e].countP Event.opensChunk ∧
      (o.newRoles e).countP (fun x => x.type = .expTask) = [e].countP Event.createsExplicit ∧
      (o.newRoles e).countP (fun x => x.region = none)
        = [e].countP Event.createsInitial + 2 * [e].countP Event.beginsLoop +
          [e].countP Event.opensChunk + [e].countP Event.createsExplicit := by
  cases delivers_of_allows ha with
  | barrierBegin =>
    simp only [newRoles]
    split_ifs <;>
      simp [Role.type, Role.region, Event.opensChunk, Event.createsExplicit, Event.createsInitial,
        Event.beginsLoop]
  | @outside _ endpoint =>
    cases endpoint <;>
      simp [newRoles, Event.opensChunk, Event.createsExplicit, Event.createsInitial,
        Event.beginsLoop]
  | @sync _ kind _ _ _ _ _ hkind =>
    cases kind with
    | barrier => exact absurd rfl hkind
    | taskwait =>
      simp [newRoles, Event.opensChunk, Event.createsExplicit, Event.createsInitial,
        Event.beginsLoop]
    | taskgroup =>
      simp [newRoles, Event.opensChunk, Event.createsExplicit, Event.createsInitial,
        Event.beginsLoop]
  | @chunk _ _ _ _ lastChunk =>
    cases lastChunk <;>
      simp [newRoles, Role.type, Role.region, Event.opensChunk, Event.createsExplicit,
        Event.createsInitial, Event.beginsLoop]
  | _ =>
    simp [newRoles, Role.type, Role.region, Event.opensChunk, Event.createsExplicit,
      Event.createsInitial, Event.beginsLoop]

/-- The nodes outside regions, counted by the callbacks that create them. -/
theorem order_counts (hrun : run env es = some c) :
    c.graph.order.countP (fun x => x.type = .chunkTask) = es.countP Event.opensChunk ∧
      c.graph.order.countP (fun x => x.type = .expTask) = es.countP Event.createsExplicit ∧
      c.graph.order.countP (fun x => x.region = none)
        = es.countP Event.createsInitial + 2 * es.countP Event.beginsLoop +
          es.countP Event.opensChunk + es.countP Event.createsExplicit := by
  refine ⟨countP_order rfl ?_ hrun, countP_order rfl ?_ hrun,
    countP_order (f := fun es => es.countP Event.createsInitial +
      2 * es.countP Event.beginsLoop + es.countP Event.opensChunk +
      es.countP Event.createsExplicit) rfl ?_ hrun⟩
  · intro es o e ha
    rw [List.countP_append, (newRoles_counts ha).1]
  · intro es o e ha
    rw [List.countP_append, (newRoles_counts ha).2.1]
  · intro es o e ha
    simp only [List.countP_append, (newRoles_counts ha).2.2]
    ring

/-- The initial task is created once. -/
theorem countP_createsInitial (hrun : run env es = some c)
    (hinit : (c.rt.task (.initial 0)).standing ≠ .absent) :
    es.countP Event.createsInitial = 1 := by
  have key : ∀ es c, run env es = some c → es.countP Event.createsInitial
      = if (c.rt.task (.initial 0)).standing = .absent then 0 else 1 := by
    intro es
    induction es using List.reverseRecOn with
    | nil =>
      intro c hrun
      obtain rfl : Config.init = c := Option.some.inj hrun
      rfl
    | append_singleton es e ih =>
      intro c hrun
      obtain ⟨c1, hc1, ha, rfl⟩ := run_snoc.mp hrun
      rw [List.countP_append, ih c1 hc1]
      have ht := taskChange ha (.initial 0)
      by_cases hcr : Creates e (.initial 0)
      · cases hcr with
        | initial =>
          cases delivers_of_allows ha with
          | initial _ _ habs => simp [habs, next, Runtime.apply, Event.createsInitial]
      · have hno : [e].countP Event.createsInitial = 0 := by
          cases delivers_of_allows ha with
          | initial => exact absurd .initial hcr
          | _ => simp [Event.createsInitial]
        have hsame : ((c1.next env e).rt.task (.initial 0)).standing = .absent ↔
            (c1.rt.task (.initial 0)).standing = .absent := by
          simp only [next]
          generalize (c1.rt.apply e).task (.initial 0) = v at ht
          cases ht with
          | created hc => exact absurd hc hcr
          | standing hpres _ hs => simp [hpres, hs]
          | _ => rfl
        simp only [hno, hsame, add_zero]
  rw [key es c hrun, if_neg hinit]

/-! ### The node list -/

/-- The nodes that a metric iterates over are those of the live roles. -/
theorem nodeList_perm (T : Tables) {g : RoleGraph} (hA : Alloc g) :
    ∃ nodes, (realize T g).toGraph.nodeList = some nodes ∧
      nodes.Perm ((g.order.filter g.live).map g.node) := by
  have hread : ∀ a ∈ (realize T g).graphNodes.entries,
      ∃ x, g.live x = true ∧ (realize T g).nodes a.2 = some (g.node x) := by
    intro a ha
    obtain ⟨b, hb, rfl⟩ := List.mem_map.mp ha
    obtain ⟨hl, -⟩ := hA.graphNodes_iff.mp hb
    exact ⟨b.2, hl, heap_addr (hA.live_mem hl) hl⟩
  obtain ⟨nodes, h1, h2⟩ := Graph.nodeList_eq fun a ha => by
    obtain ⟨x, -, hx⟩ := hread a ha
    exact ⟨_, hx⟩
  refine ⟨nodes, h1, ?_⟩
  have hperm : (g.graphNodes.entries.map Prod.snd).Perm (g.order.filter g.live) := by
    refine (List.perm_ext_iff_of_nodup ?_ (hA.nodup.filter _)).mpr fun x => ?_
    · -- the id of an entry is the address of its node
      refine List.Nodup.of_map (fun x => (g.addr x : ℤ)) ?_
      have hkeys : (g.graphNodes.entries.map Prod.snd).map (fun x => (g.addr x : ℤ))
          = g.graphNodes.entries.map Prod.fst := by
        rw [List.map_map]
        exact List.map_congr_left fun a ha => (hA.graphNodes_iff.mp ha).2.symm
      rw [hkeys]
      exact g.graphNodes.keys_nodup
    · simp only [List.mem_map, List.mem_filter, Prod.exists, exists_eq_right]
      constructor
      · rintro ⟨id, hid⟩
        obtain ⟨hl, -⟩ := hA.graphNodes_iff.mp hid
        exact ⟨hA.live_mem hl, hl⟩
      · rintro ⟨-, hl⟩
        exact ⟨g.addr x, hA.graphNodes_iff.mpr ⟨hl, rfl⟩⟩
  have hnodes : nodes = (g.graphNodes.entries.map Prod.snd).map g.node := by
    apply List.map_injective_iff.mpr (Option.some_injective Node)
    rw [← h2]
    show List.map _ (g.graphNodes.entries.map fun a => (a.1, g.addr a.2)) = _
    rw [List.map_map, List.map_map, List.map_map]
    refine List.map_congr_left fun a ha => ?_
    obtain ⟨hl, -⟩ := hA.graphNodes_iff.mp ha
    exact heap_addr (hA.live_mem hl) hl
  rw [hnodes]
  exact hperm.map g.node

theorem nodeList_realize {T : Tables} {g : RoleGraph} (hA : Alloc g) :
    ∃ nodes, (realize T g).toGraph.nodeList = some nodes ∧
      (nodes.map fun nd => nd.type).Perm ((g.order.filter g.live).map Role.type) := by
  obtain ⟨nodes, hnodes, hperm⟩ := nodeList_perm T hA
  have htype : ((g.order.filter g.live).map g.node).map (fun nd => nd.type)
      = (g.order.filter g.live).map Role.type := by
    rw [List.map_map]
    exact List.map_congr_left fun x hx => hA.type_eq (List.mem_of_mem_filter hx)
  exact ⟨nodes, hnodes, htype ▸ hperm.map _⟩

/-! ### The accounts -/

/-- The live roles, region by region. -/
theorem length_live (hrun : run env es = some c) (hteam : ∀ e ∈ es, fullTeam e = true)
    (hreg : c.rt.RegionsEnded) (htask : c.rt.TasksDone) :
    (c.graph.order.filter c.graph.live).length
      = c.graph.order.countP (fun x => x.region = none) +
        ((es.filterMap Event.beginsRegion).map fun a => regionNodes a.2.1 a.2.2).sum := by
  have hg := run_good hrun
  obtain ⟨hnd, hmem⟩ := regions_run hrun
  set live := (c.graph.order.filter c.graph.live).toFinset with hlive
  set ids := ((es.filterMap Event.beginsRegion).map Prod.fst).toFinset with hids
  have hcard : live.card = (c.graph.order.filter c.graph.live).length :=
    List.toFinset_card_of_nodup (hg.alloc.nodup.filter _)
  have hx : ∀ x, x ∈ live ↔ c.graph.live x = true := by
    intro x
    simp only [hlive, List.mem_toFinset, List.mem_filter, and_iff_right_iff_imp]
    exact hg.alloc.live_mem
  -- a region with a live role was begun by the run
  have hmaps : Set.MapsTo Role.region live (insert none (ids.image some) : Finset (Option ℕ)) := by
    intro x hxl
    have hcr := (hg.shaped.live_iff.mp ((hx x).mp (by simpa using hxl))).1
    have hbegun : ∀ r, (c.rt.region r).stage ≠ .absent → r ∈ ids := by
      intro r hr
      have hr' := (hmem r _ _).mpr ⟨hr, rfl, rfl⟩
      exact List.mem_toFinset.mpr (List.mem_map.mpr ⟨_, hr', rfl⟩)
    have hpres : ∀ r, x.region = some r → (c.rt.region r).stage ≠ .absent := by
      intro r hr
      cases x with
      | sink r' =>
        obtain rfl := Option.some.inj hr
        exact hcr
      | imp r' t j =>
        obtain rfl := Option.some.inj hr
        exact hg.sound.region_present hcr.1
      | barrier r' i =>
        obtain rfl := Option.some.inj hr
        intro habs
        have := ((hg.sound.team r').absent habs).1
        simp [Created, this] at hcr
      | _ => cases hr
    rcases hr : x.region with - | r
    · simp
    · simpa using hbegun r (hpres r hr)
  have hnone : (live.filter fun x => x.region = none).card
      = c.graph.order.countP (fun x => x.region = none) := by
    rw [List.countP_eq_length_filter, ← List.toFinset_card_of_nodup (hg.alloc.nodup.filter _)]
    congr 1
    ext x
    simp only [Finset.mem_filter, hx, List.mem_toFinset, List.mem_filter, decide_eq_true_eq,
      and_congr_left_iff]
    intro hr
    rw [hg.shaped.live_iff, hg.shaped.order_iff, and_iff_left_iff_imp]
    intro _
    cases x with
    | imp => cases hr
    | _ => exact id
  have hsome : ∀ r ∈ ids, (live.filter fun x => x.region = some r).card
      = regionNodes (c.rt.region r).teamSize (c.rt.region r).barriers := by
    intro r hr
    obtain ⟨⟨r', n, k⟩, hbegun, rfl⟩ := List.mem_map.mp (List.mem_toFinset.mp hr)
    have hpres := ((hmem r' n k).mp hbegun).1
    obtain ⟨hn, -, hk⟩ := (hg.sound.team r').sizes hpres
    have hend : (c.rt.region r').stage = .ended := by
      rcases hs : (c.rt.region r').stage with - | - | -
      · exact absurd hs hpres
      · exact absurd hs (hreg r')
      · rfl
    rw [← Role.card_ofRegion r' hn hk]
    congr 1
    ext x
    rw [Finset.mem_filter, hx]
    exact live_region hg hend (requested_run hrun hteam r') htask
  rw [← hcard, Finset.card_eq_sum_card_fiberwise hmaps, Finset.sum_insert (by simp), hnone,
    Finset.sum_image (by simp), Finset.sum_congr rfl hsome, List.sum_toFinset _ hnd, List.map_map]
  congr 2
  refine List.map_congr_left fun a ha => ?_
  obtain ⟨-, h1, h2⟩ := (hmem a.1 a.2.1 a.2.2).mp ha
  simp only [Function.comp_apply, h1, h2]

/-- **The accounts of a completed run.**  In every run with one initial task in
which teams are formed as requested and which has come to its end, however the
callbacks of the threads are interleaved, the counts that `TotalTimeMetric`
prints are: as many chunks as `cb_ext_chunk` calls with `last_chunk = 0`, as
many explicit tasks as `cb_task_create` calls for them, and as many tasks as the
root, the nodes of each region, two nodes for each loop, the chunks and the
explicit tasks together.  The code counts in `unsigned int`, that is modulo
`2 ^ 32`. -/
theorem totalTime_counts (env : Env) (th : ThreadId) {o : Runtime}
    (hrun : Runtime.run es = some o) (hteam : ∀ e ∈ es, fullTeam e = true)
    (hinit : (o.task (.initial 0)).standing ≠ .absent) (hreg : o.RegionsEnded)
    (htask : o.TasksDone) :
    ∃ s s' tt, Tool.run env es = some s ∧ s.closeFinalNode env th = some s' ∧
      s'.toGraph.totalTimeInit = some tt ∧
      tt.numChunks = es.countP Event.opensChunk ∧
      tt.numExplicitTasks = es.countP Event.createsExplicit ∧
      tt.nodeTimesArr.length
        = 1 + ((es.filterMap Event.beginsRegion).map fun a => regionNodes a.2.1 a.2.2).sum +
          2 * es.countP Event.beginsLoop + tt.numChunks + tt.numExplicitTasks := by
  obtain ⟨c, hc, rfl⟩ := run_of_runtime env hrun
  have hg := run_good hc
  have hC := (hg.shaped.closed hg.sound hg.alloc).closeFinal env th
  have horder : (c.graph.closeFinal env th).order = c.graph.order ∧
      (c.graph.closeFinal env th).live = c.graph.live := by
    unfold RoleGraph.closeFinal
    rcases c.graph.finalNode with - | x <;> exact ⟨rfl, rfl⟩
  obtain ⟨nodes, hnodes, hperm⟩ := nodeList_realize (T := tables c.rt c.graph) hC.toAlloc
  rw [horder.1, horder.2] at hperm
  obtain ⟨tt, htt⟩ := Graph.exists_totalTimeInit hnodes
  obtain ⟨h1, h2, h3⟩ := order_counts hc
  -- chunks and explicit tasks are never removed
  have hcount : ∀ ty : NodeType, ty ≠ .impTask →
      (nodes.filter fun nd => nd.type = ty).length = c.graph.order.countP fun x => x.type = ty := by
    intro ty hty
    have hn : (nodes.filter fun nd => nd.type = ty).length
        = (nodes.map fun nd => nd.type).countP fun t => t = ty := by
      rw [List.countP_map, List.countP_eq_length_filter]
      rfl
    rw [hn, hperm.countP_eq, List.countP_map, List.countP_filter]
    refine List.countP_congr fun x hx => ?_
    have hcr := hg.shaped.order_iff.mp hx
    have hlive : x.type = ty → c.graph.live x = true := by
      intro hxt
      refine hg.shaped.live_iff.mpr ⟨hcr, ?_⟩
      cases x with
      | imp => exact absurd hxt.symm hty
      | _ => exact id
    simpa using hlive
  obtain ⟨hchunks, hexp⟩ := Graph.totalTimeInit_counts hnodes htt
  rw [hcount .chunkTask (by simp), h1] at hchunks
  rw [hcount .expTask (by simp), h2] at hexp
  refine ⟨c.tool, _, tt, tool_run hc, closeFinalNode_run th hc, htt, hchunks, hexp, ?_⟩
  obtain ⟨nodes', hnodes', -, harr⟩ := Graph.nodesTotalTime_eq htt
  obtain rfl : nodes = nodes' := Option.some.inj (hnodes.symm.trans hnodes')
  have hlen : nodes.length = (c.graph.order.filter c.graph.live).length := by
    simpa using hperm.length_eq
  rw [harr.length_eq, List.length_map, hlen, length_live hc hteam hreg htask, h3,
    countP_createsInitial hc hinit, hchunks, hexp]
  ring

theorem totalTime_counts_taskInBarrier :
    ∃ s s' tt, Tool.run { clock := fun k => k } taskInBarrier = some s ∧
      s.closeFinalNode { clock := fun k => k } 0 = some s' ∧
      s'.toGraph.totalTimeInit = some tt ∧ tt.numChunks = 0 ∧ tt.numExplicitTasks = 1 ∧
      tt.nodeTimesArr.length = 6 := by
  obtain ⟨o, ho, hreg, htask⟩ := taskInBarrier_ended
  have hinit : (o.task (.initial 0)).standing ≠ .absent := by
    obtain rfl := Option.some.inj ho
    decide
  obtain ⟨s, s', tt, h1, h2, h3, h4, h5, h6⟩ :=
    totalTime_counts { clock := fun k => k } 0 ho (by decide) hinit hreg htask
  refine ⟨s, s', tt, h1, h2, h3, h4, h5, ?_⟩
  rw [h6, h4, h5]
  decide

end Config

end Tdg
