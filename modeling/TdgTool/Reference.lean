/-
TdgTool/Reference.lean

The graph that a program leaves behind, whatever the interleaving.

Along a run of a program, every thread is where its own acts have led it and the
role graph consists of what the tasks have made so far (`Woven`).  Both depend
on the acts of each task alone, and at the end these are its script: what is
left is the reference graph (`Woven.mem_pieces`), and the stored graph is
isomorphic to it.
-/
import TdgTool.Weave

namespace Tdg

namespace Config

open RoleGraph Tdg.Runtime

variable {P : Program} {es : List Event} {e : Event} {c : Config} {env : Env} {p : Piece}
  {a : Act} {r : RegionId} {τ : TaskId}

/-! ### Runs of a program -/

/-- What the tasks of the program have made in the course of the run. -/
def Made (P : Program) (es : List Event) (p : Piece) : Prop :=
  (∃ a ∈ acts (.initial 0) es, p ∈ homeMade a) ∨
    ∃ r t, p ∈ (P.member r t).trace {} (acts (.implicit r t) es)

/-- The run has gone some way through the program. -/
def Follows (P : Program) (es : List Event) : Prop := ∀ τ, acts τ es <+: P.script τ

/-- **The state of a run of a program**, in terms of what each of its tasks has
done. -/
structure Woven (P : Program) (es : List Event) (c : Config) : Prop where
  strand : ∀ r t, Mirrors c.rt c.graph (P.member r t)
    ((P.member r t).after {} (acts (.implicit r t) es))
  home : c.graph.cur (.initial 0) = Program.homeAfter (acts (.initial 0) es)
  region : ∀ r, (c.rt.region r).stage ≠ .absent → r ∈ P.order ∧
    (c.rt.region r).requested = (P.region r).threads ∧
    (c.rt.region r).teamSize = (P.region r).threads ∧ (c.rt.region r).parent = .initial 0
  opened : ∀ r, (c.rt.region r).stage = .opened →
    ∃ as q m k, acts (.initial 0) es = as ++ [.fork r q m k]
  done : ∀ r t, .exit ∈ acts (.implicit r t) es → (c.rt.task (.implicit r t)).standing = .done
  covers : Covers c.graph (Made P es)

theorem Follows.of_snoc (h : Follows P (es ++ [e])) : Follows P es := fun τ => by
  refine List.IsPrefix.trans ?_ (h τ)
  rw [acts_append]
  exact List.prefix_append _ _

/-- Whose act a callback of the run can be. -/
theorem Follows.act (h : Follows P (es ++ [e])) (hact : e.act = some (τ, a)) :
    τ = .initial 0 ∧ a ∈ P.script (.initial 0) ∧ a.ofInitial = true ∨
      ∃ r t, τ = .implicit r t ∧ a.ofThread = true := by
  have hmem : a ∈ P.script τ := by
    refine (h τ).subset ?_
    rw [acts_snoc_of_act hact]
    simp
  rcases Program.mem_script hmem with ⟨rfl, hof⟩ | ⟨r, t, rfl, -, -, hof⟩
  · exact .inl ⟨rfl, hmem, hof⟩
  · exact .inr ⟨r, t, rfl, hof⟩

theorem made_barrier {i : ℕ} {lower upper : ℤ}
    (hp : Made P es (.node (.barrier r i) lower upper)) : lower = 0 ∧ upper = 0 := by
  rcases hp with ⟨a, -, hp⟩ | ⟨r', t, hp⟩
  · cases a <;> simp [homeMade] at hp
  · refine Member.trace_induction (Q := fun p => ∀ lower upper,
      p = .node (.barrier r i) lower upper → lower = 0 ∧ upper = 0) ?_ hp lower upper rfl
    rintro s a p hp lower upper rfl
    exact Member.made_barrier hp

/-- What is made when a task acts. -/
theorem made_initial (hact : e.act = some (.initial 0, a)) :
    Made P (es ++ [e]) p ↔ Made P es p ∨ p ∈ homeMade a := by
  have hother : ∀ r t, acts (.implicit r t) (es ++ [e]) = acts (.implicit r t) es :=
    fun r t => acts_snoc_of_other (by simp [hact])
  simp only [Made, acts_snoc_of_act hact, hother, List.mem_append, List.mem_singleton, or_and_right,
    exists_or, exists_eq_left]
  exact or_right_comm

theorem made_thread {r : RegionId} {t : ℕ} (hact : e.act = some (.implicit r t, a)) :
    Made P (es ++ [e]) p ↔ Made P es p ∨
      p ∈ (P.member r t).made ((P.member r t).after {} (acts (.implicit r t) es)) a := by
  have hinitial : acts (.initial 0) (es ++ [e]) = acts (.initial 0) es :=
    acts_snoc_of_other (by simp [hact])
  have hself : acts (.implicit r t) (es ++ [e]) = acts (.implicit r t) es ++ [a] :=
    acts_snoc_of_act hact
  have hother : ∀ r' t', (r', t') ≠ (r, t) →
      acts (.implicit r' t') (es ++ [e]) = acts (.implicit r' t') es := by
    intro r' t' hne
    refine acts_snoc_of_other fun b hb => ?_
    obtain ⟨rfl, rfl⟩ := TaskId.implicit.inj (Prod.mk.inj (Option.some.inj (hact.symm.trans hb))).1
    exact hne rfl
  simp only [Made, hinitial]
  rw [or_assoc]
  refine or_congr_right ⟨?_, ?_⟩
  · rintro ⟨r', t', hp⟩
    by_cases hne : (r', t') = (r, t)
    · obtain ⟨rfl, rfl⟩ := Prod.mk.inj hne
      rw [hself, Member.trace_snoc, List.mem_append] at hp
      exact hp.imp_left fun hp => ⟨r', t', hp⟩
    · rw [hother r' t' hne] at hp
      exact .inl ⟨r', t', hp⟩
  · rintro (⟨r', t', hp⟩ | hp)
    · refine ⟨r', t', ?_⟩
      by_cases hne : (r', t') = (r, t)
      · obtain ⟨rfl, rfl⟩ := Prod.mk.inj hne
        rw [hself, Member.trace_snoc]
        exact List.mem_append_left _ hp
      · rwa [hother r' t' hne]
    · refine ⟨r, t, ?_⟩
      rw [hself, Member.trace_snoc]
      exact List.mem_append_right _ hp

theorem made_none (hact : e.act = none) : Made P (es ++ [e]) p ↔ Made P es p := by
  have hother : ∀ τ, acts τ (es ++ [e]) = acts τ es :=
    fun τ => acts_snoc_of_other (by simp [hact])
  simp only [Made, hother]

theorem woven_init : Woven P [] Config.init where
  strand := fun r t => ⟨rfl, rfl, rfl, rfl, rfl⟩
  home := rfl
  region := by simp [Config.init, Runtime.init]
  opened := by simp [Config.init, Runtime.init]
  done := by simp [acts]
  covers := by
    have hM : Made P [] = fun _ => False := by
      funext p
      simp [Made, acts, Member.trace]
    rw [hM]
    exact covers_init

/-- Where a thread of the program enters its region. -/
theorem Woven.entry (h : Woven P es c) (hF : Follows P es)
    (hopen : (c.rt.region r).stage = .opened) (t : ℕ) :
    c.graph.cur (c.rt.region r).parent = (P.member r t).entry := by
  have hpresent : (c.rt.region r).stage ≠ .absent := by simp [hopen]
  obtain ⟨-, -, -, hparent⟩ := h.region r hpresent
  obtain ⟨as, q, m, k, has⟩ := h.opened r hopen
  have hpre := hF (.initial 0)
  rw [has] at hpre
  rw [hparent, h.home, has, Program.homeAfter_fork hpre]
  rfl

/-- The callback adds what the program makes by it. -/
theorem Woven.adds (h : Woven P es c) (hg : c.Good) (ha : c.rt.allows e = true)
    (hF : Follows P (es ++ [e])) : ∃ ps, Adds c.rt c.graph e ps ∧
      ∀ p, Made P (es ++ [e]) p ↔ Made P es p ∨ p ∈ ps := by
  rcases hact : e.act with - | ⟨τ, a⟩
  · exact ⟨[], adds_none ha hact, fun p => by simp [made_none hact]⟩
  · rcases hF.act hact with ⟨rfl, -, hof⟩ | ⟨r, t, rfl, hof⟩
    · exact ⟨_, (byInitial_of_act ha hact hof).adds, fun p => made_initial hact⟩
    · have hby := byThread_of_act ha hact hof
      obtain ⟨hpresent, hopen⟩ := hby.region hg.sound
      obtain ⟨-, hreq, hsize, -⟩ := h.region r hpresent
      refine ⟨_, (h.strand r t).adds hg.shaped hg.sound hby hreq (.inl (hsize.trans hreq.symm)) ?_,
        fun p => made_thread hact⟩
      exact fun he => h.entry hF.of_snoc (hopen he) t

theorem Woven.strand_step (h : Woven P es c) (hg : c.Good) (ha : c.rt.allows e = true)
    (hF : Follows P (es ++ [e])) (r : RegionId) (t : ℕ) :
    Mirrors (c.next env e).rt (c.next env e).graph (P.member r t)
      ((P.member r t).after {} (acts (.implicit r t) (es ++ [e]))) := by
  by_cases hact : ∃ a, e.act = some (.implicit r t, a)
  · obtain ⟨a, hact⟩ := hact
    have hof : a.ofThread = true := by
      rcases hF.act hact with ⟨hτ, -⟩ | ⟨-, -, -, hof⟩
      · cases hτ
      · exact hof
    have hby := byThread_of_act ha hact hof
    obtain ⟨-, hreq, hsize, -⟩ := h.region r (hby.region hg.sound).1
    rw [acts_snoc_of_act hact, Member.after_snoc]
    exact (h.strand r t).step hg.sound hg.loopsFresh ha hby hreq (.inl (hsize.trans hreq.symm))
  · have hother : ∀ a, e.act ≠ some (.implicit r t, a) := fun a he => hact ⟨a, he⟩
    rw [acts_snoc_of_other hother]
    exact (h.strand r t).other hg.sound ha hother

theorem Woven.home_step (h : Woven P es c) (ha : c.rt.allows e = true)
    (hF : Follows P (es ++ [e])) :
    (c.next env e).graph.cur (.initial 0) = Program.homeAfter (acts (.initial 0) (es ++ [e])) := by
  by_cases hact : ∃ a, e.act = some (.initial 0, a)
  · obtain ⟨a, hact⟩ := hact
    have hof : a.ofInitial = true := by
      rcases hF.act hact with ⟨-, -, hof⟩ | ⟨r, t, hτ, -⟩
      · exact hof
      · cases hτ
    rw [acts_snoc_of_act hact]
    have hhome : Program.homeAfter (acts (.initial 0) es ++ [a]) =
        Program.homeStep (Program.homeAfter (acts (.initial 0) es)) a := by
      simp [Program.homeAfter]
    rw [hhome, ← h.home]
    exact (byInitial_of_act ha hact hof).cur ha
  · have hother : ∀ a, e.act ≠ some (.initial 0, a) := fun a he => hact ⟨a, he⟩
    rw [acts_snoc_of_other hother, ← h.home]
    refine Shaped.cur_of_not_moved ha fun x hx => ?_
    obtain ⟨a, he⟩ := act_of_newCur ha hx rfl
    exact hother a he

theorem Woven.region_step (h : Woven P es c) (ha : c.rt.allows e = true)
    (hF : Follows P (es ++ [e])) (hpresent : ((c.next env e).rt.region r).stage ≠ .absent) :
    r ∈ P.order ∧ ((c.next env e).rt.region r).requested = (P.region r).threads ∧
      ((c.next env e).rt.region r).teamSize = (P.region r).threads ∧
      ((c.next env e).rt.region r).parent = .initial 0 := by
  have hc : RegionChange c.rt e r ((c.next env e).rt.region r) := regionChange ha r
  generalize (c.next env e).rt.region r = ρ at hc hpresent
  cases hc with
  | same => exact h.region r hpresent
  | @opened parent q m k hcall =>
    have hact : e.act = some (parent, .fork r q m k) := by
      simp [Event.act, hcall]
    rcases hF.act hact with ⟨rfl, hmem, -⟩ | ⟨r', t, -, hof⟩
    · rcases Program.mem_script_initial.mp hmem with hfork | ⟨r', hr', hfork | hfork⟩
      · cases hfork
      · obtain ⟨rfl, rfl, rfl, rfl⟩ := Act.fork.inj hfork
        exact ⟨hr', rfl, rfl, rfl⟩
      · cases hfork
    · cases hof
  | ended _ hopen => exact h.region r (by simp [hopen])
  | reached => exact h.region r hpresent

theorem Woven.opened_step (h : Woven P es c) (hg : c.Good) (ha : c.rt.allows e = true)
    (hF : Follows P (es ++ [e])) (hopen : ((c.next env e).rt.region r).stage = .opened) :
    ∃ as q m k, acts (.initial 0) (es ++ [e]) = as ++ [.fork r q m k] := by
  have hpresent : ((c.next env e).rt.region r).stage ≠ .absent := by simp [hopen]
  obtain ⟨-, -, -, hparent⟩ := h.region_step ha hF hpresent
  rcases opened_of_apply ha hopen with ⟨hold, hpar⟩ | ⟨parent, q, m, k, hcall, -, -, hpar⟩
  · -- the region was open before, so the initial task has done nothing since
    have hpar' : (c.rt.region r).parent = .initial 0 := hpar.symm.trans hparent
    have hother : ∀ a, e.act ≠ some (.initial 0, a) := by
      intro a hact
      rcases hF.act hact with ⟨-, -, hof⟩ | ⟨r', t, hτ, -⟩
      · obtain rfl := (byInitial_of_act ha hact hof).join_of_opened hg.sound hold hpar'
        cases byInitial_of_act ha hact hof with
        | join => simp [next, Runtime.apply] at hopen
      · cases hτ
    rw [acts_snoc_of_other hother]
    exact h.opened r hold
  · obtain rfl : parent = .initial 0 := hpar.symm.trans hparent
    have hact : e.act = some (.initial 0, .fork r q m k) := by
      simp [Event.act, hcall]
    exact ⟨_, q, m, k, acts_snoc_of_act hact⟩

theorem Woven.done_step (h : Woven P es c) (ha : c.rt.allows e = true)
    (hF : Follows P (es ++ [e])) {t : ℕ} (hexit : .exit ∈ acts (.implicit r t) (es ++ [e])) :
    ((c.next env e).rt.task (.implicit r t)).standing = .done := by
  have hold : .exit ∈ acts (.implicit r t) es →
      ((c.next env e).rt.task (.implicit r t)).standing = .done := by
    intro hin
    have hdone := h.done r t hin
    exact (congrArg TaskState.standing (task_apply_of_done ha hdone)).trans hdone
  by_cases hact : ∃ a, e.act = some (.implicit r t, a)
  · obtain ⟨a, hact⟩ := hact
    rw [acts_snoc_of_act hact, List.mem_append, List.mem_singleton] at hexit
    rcases hexit with hin | rfl
    · exact hold hin
    · cases byThread_of_act ha hact rfl with
      | exit => simp [next, Runtime.apply]
  · rw [acts_snoc_of_other fun a he => hact ⟨a, he⟩] at hexit
    exact hold hexit

/-- **One more callback of the program.** -/
theorem Woven.step (h : Woven P es c) (hg : c.Good) (ha : c.rt.allows e = true)
    (hF : Follows P (es ++ [e])) : Woven P (es ++ [e]) (c.next env e) where
  strand := h.strand_step hg ha hF
  home := h.home_step ha hF
  region := fun _ => h.region_step ha hF
  opened := fun _ => h.opened_step hg ha hF
  done := fun _ _ => h.done_step ha hF
  covers := by
    obtain ⟨ps, hadds, hM⟩ := h.adds hg ha hF
    exact h.covers.step hg.shaped (hg.next env ha).alloc ha hadds hM fun _ _ _ _ => made_barrier

theorem woven_run (hrun : run env es = some c) (hF : Follows P es) : Woven P es c := by
  induction es using List.reverseRecOn generalizing c with
  | nil =>
    obtain rfl : Config.init = c := Option.some.inj hrun
    exact woven_init
  | append_singleton es e ih =>
    obtain ⟨c', hc', ha, rfl⟩ := run_snoc.mp hrun
    exact (ih hc' hF.of_snoc).step (run_good hc') ha hF

/-! ### The end of the program -/

theorem Follows.of_executes (hP : P.Executes es) : Follows P es := fun τ => by
  rw [hP τ]

/-- What has been made in the end. -/
theorem made_iff (hP : P.Executes es) : Made P es p ↔ p = .node .root 0 0 ∨
    ∃ r ∈ P.order, p = .node (.sink r) 0 0 ∨
      ∃ t < (P.region r).threads, p ∈ (P.member r t).trace {} ((P.region r).script t) := by
  simp only [Made, hP _]
  constructor
  · rintro (⟨a, ha, hp⟩ | ⟨r, t, hp⟩)
    · rcases Program.mem_script_initial.mp ha with rfl | ⟨r, hr, rfl | rfl⟩
      · exact .inl (List.mem_singleton.mp hp)
      · exact .inr ⟨r, hr, .inl (List.mem_singleton.mp hp)⟩
      · cases hp
    · simp only [Program.script] at hp
      split_ifs at hp with hrt
      · exact .inr ⟨r, hrt.1, .inr ⟨t, hrt.2, hp⟩⟩
      · cases hp
  · rintro (rfl | ⟨r, hr, rfl | ⟨t, ht, hp⟩⟩)
    · exact .inl ⟨.create, Program.mem_script_initial.mpr (.inl rfl), List.mem_singleton_self _⟩
    · exact .inl ⟨_, Program.mem_script_initial.mpr (.inr ⟨r, hr, .inl rfl⟩),
        List.mem_singleton_self _⟩
    · refine .inr ⟨r, t, ?_⟩
      rwa [Program.script, if_pos ⟨hr, ht⟩]

/-- At the end, the dropped nodes are the spare ones. -/
theorem Woven.dropped_iff (h : Woven P es c) (hg : c.Good) (hP : P.Executes es) {x : Role}
    (hx : x ∈ c.graph.order) : c.rt.Dropped x ↔ ∃ r, (P.region r).Spare r x := by
  -- the threads that have begun have gone through their scripts
  have hthread : ∀ {r t}, (c.rt.task (.implicit r t)).standing ≠ .absent →
      1 < (P.region r).threads → (c.rt.task (.implicit r t)).standing = .done ∧
        (c.rt.task (.implicit r t)).arrived = (P.region r).phases := by
    intro r t hpresent hn
    obtain ⟨hr, -, hsize, -⟩ := h.region r (hg.sound.region_present hpresent)
    have ht : t < (P.region r).threads := hsize ▸ (hg.sound.team r).thread_lt hpresent
    have hscript : acts (.implicit r t) es = (P.region r).script t := by
      rw [hP, Program.script, if_pos ⟨hr, ht⟩]
    have hend := (Member.runs_team (m := P.member r t) (R := P.region r) hn).1
    have hmirror := h.strand r t
    rw [hscript] at hmirror
    rw [show (P.member r t).num = t from rfl] at hend
    rw [hend] at hmirror
    refine ⟨h.done r t ?_, hmirror.arrived⟩
    rw [hscript]
    simp [Region.script]
  have hreq : ∀ {r t}, (c.rt.task (.implicit r t)).standing ≠ .absent →
      (c.rt.region r).requested = (P.region r).threads :=
    fun hpresent => (h.region _ (hg.sound.region_present hpresent)).2.1
  constructor
  · intro hd
    cases x with
    | imp r t j =>
      obtain ⟨hdone, hq, rfl⟩ := hd
      have hpresent : (c.rt.task (.implicit r t)).standing ≠ .absent := by simp [hdone]
      have hn : 1 < (P.region r).threads := hreq hpresent ▸ hq
      exact ⟨r, hn, t, by rw [(hthread hpresent hn).2]⟩
    | _ => exact hd.elim
  · rintro ⟨r, hn, t, rfl⟩
    have hpresent := (hg.shaped.order_iff.mp hx).1
    obtain ⟨hdone, harr⟩ := hthread hpresent hn
    exact ⟨hdone, (hreq hpresent).symm ▸ hn, harr.symm⟩

/-- **The reference graph is what is left.** -/
theorem Woven.mem_pieces (h : Woven P es c) (hg : c.Good) (hP : P.Executes es) :
    p ∈ P.pieces ↔ Made P es p ∧ c.graph.live p.top = true := by
  have htop : Made P es p → p.top ∈ c.graph.order := by
    intro hm
    cases p with
    | node x lower upper => exact (h.covers.order x).mpr ⟨lower, upper, hm⟩
    | edge x y => exact h.covers.target x y hm
  have hlive : ∀ {x}, x ∈ c.graph.order →
      (c.graph.live x = true ↔ ¬∃ r, (P.region r).Spare r x) := by
    intro x hx
    rw [hg.shaped.live_iff, h.dropped_iff hg hP hx]
    exact and_iff_right (hg.shaped.order_iff.mp hx)
  have hnode : ∀ {x}, p = .node x 0 0 → (∀ r t j, x ≠ .imp r t j) → Made P es p →
      c.graph.live p.top = true := by
    rintro x rfl hx hm
    refine (hlive (htop hm)).mpr ?_
    rintro ⟨r, -, t, ht⟩
    exact hx r t _ ht
  rw [Program.mem_pieces]
  constructor
  · rintro (rfl | ⟨r, hr, rfl | ⟨t, ht, hp, hspare⟩⟩)
    · have hm := (made_iff hP).mpr (.inl rfl)
      exact ⟨hm, hnode rfl (by simp) hm⟩
    · have hm := (made_iff hP).mpr (.inr ⟨r, hr, .inl rfl⟩)
      exact ⟨hm, hnode rfl (by simp) hm⟩
    · have hm := (made_iff hP).mpr (.inr ⟨r, hr, .inr ⟨t, ht, hp⟩⟩)
      refine ⟨hm, (hlive (htop hm)).mpr ?_⟩
      -- a thread makes spare nodes of its own region only
      rintro ⟨r', hn, t', htop'⟩
      have hown : r' = r := Member.trace_induction
        (Q := fun p => ∀ j, p.top = .imp r' t' j → r' = r)
        (fun s a p hp j hj => Member.made_top_imp hp hj) hp _ htop'
      subst hown
      exact hspare ⟨hn, t', htop'⟩
  · rintro ⟨hm, hl⟩
    rcases (made_iff hP).mp hm with rfl | ⟨r, hr, rfl | ⟨t, ht, hp⟩⟩
    · exact .inl rfl
    · exact .inr ⟨r, hr, .inl rfl⟩
    · exact .inr ⟨r, hr, .inr ⟨t, ht, hp, fun hs => (hlive (htop hm)).mp hl ⟨r, hs⟩⟩⟩

/-! ### The stored graph and the reference graph -/

/-- The edges in the exit vector of a node. -/
theorem Good.edges_eq (hg : c.Good) (n k : NodeRef) : c.tool.toGraph.labelled.edges n k =
    c.graph.edges.countP fun a => c.graph.addr a.1 = n ∧ c.graph.addr a.2 = k := by
  show (c.tool.nodes n).elim 0 (fun nd => nd.exitEdges.countP fun e => e.target = k) = _
  rcases hn : c.tool.nodes n with - | nd
  · -- no edge leaves an address without a node
    refine (List.countP_eq_zero.mpr fun a ha hk => ?_).symm
    obtain ⟨hfrom, -⟩ := of_decide_eq_true hk
    rw [hg.nodes_iff.mpr ⟨a.1, (hg.alloc.edges_live ha).1, hfrom, rfl⟩] at hn
    cases hn
  · obtain ⟨x, hx, rfl, rfl⟩ := hg.nodes_iff.mp hn
    simp only [Option.elim_some, node, List.countP_map, List.countP_filter]
    refine List.countP_congr fun a ha => ?_
    have hfrom : a.1 = x ↔ c.graph.addr a.1 = c.graph.addr x :=
      ⟨fun h => h ▸ rfl, (addr_inj (hg.alloc.edges_mem ha).1).mp⟩
    simp only [Function.comp_apply, hfrom, Bool.and_eq_true, decide_eq_true_eq]
    exact and_comm

/-- The entry vectors hold the same edges. -/
theorem Good.entriesFrom_eq (hg : c.Good) (n k : NodeRef) : c.tool.toGraph.entriesFrom n k =
    c.graph.edges.countP fun a => c.graph.addr a.1 = n ∧ c.graph.addr a.2 = k := by
  show (c.tool.nodes k).elim 0 (fun nd => nd.entryEdges.countP fun e => e.source = n) = _
  rcases hk : c.tool.nodes k with - | nd
  · refine (List.countP_eq_zero.mpr fun a ha hn => ?_).symm
    obtain ⟨-, hto⟩ := of_decide_eq_true hn
    rw [hg.nodes_iff.mpr ⟨a.2, (hg.alloc.edges_live ha).2, hto, rfl⟩] at hk
    cases hk
  · obtain ⟨y, hy, rfl, rfl⟩ := hg.nodes_iff.mp hk
    simp only [Option.elim_some, node, List.countP_map, List.countP_filter]
    refine List.countP_congr fun a ha => ?_
    have hto : a.2 = y ↔ c.graph.addr a.2 = c.graph.addr y :=
      ⟨fun h => h ▸ rfl, (addr_inj (hg.alloc.edges_mem ha).2).mp⟩
    simp only [Function.comp_apply, hto, Bool.and_eq_true, decide_eq_true_eq]
    exact Iff.rfl

/-- There is one edge, or none. -/
theorem Good.edges_addr (hg : c.Good) {x y : Role} [Decidable (c.graph.Link x y)] :
    c.tool.toGraph.labelled.edges (c.graph.addr x) (c.graph.addr y)
      = if c.graph.Link x y then 1 else 0 := by
  have hcount : (c.graph.edges.countP fun a => c.graph.addr a.1 = c.graph.addr x ∧
      c.graph.addr a.2 = c.graph.addr y) = c.graph.edges.count (x, y) := by
    refine List.countP_congr fun a ha => ?_
    obtain ⟨h1, h2⟩ := hg.alloc.edges_mem ha
    simp [addr_inj h1, addr_inj h2, Prod.ext_iff]
  rw [hg.edges_eq, hcount]
  split_ifs with hxy
  · exact List.count_eq_one_of_mem hg.alloc.edges_nodup hxy
  · exact List.count_eq_zero_of_not_mem hxy

theorem bounds_eq {x : Role} {b : ℤ × ℤ} (hex : ∃ lower upper, .node x lower upper ∈ P.pieces)
    (hall : ∀ lower upper, .node x lower upper ∈ P.pieces → b = (lower, upper)) :
    P.bounds x = b := by
  obtain ⟨lower, upper, hx⟩ := hex
  unfold Program.bounds
  rcases hfind : P.pieces.findSome? _ with - | b'
  · have hnone := List.findSome?_eq_none_iff.mp hfind _ hx
    simp at hnone
  · obtain ⟨p, hp, hb'⟩ := List.exists_of_findSome?_eq_some hfind
    cases p with
    | node y lower upper =>
      simp only at hb'
      split_ifs at hb' with hy
      subst hy
      obtain rfl := Option.some.inj hb'
      exact (hall lower upper hp).symm
    | edge => cases hb'

/-- **The stored graph is the reference graph**, up to the names of the nodes. -/
theorem Woven.isomorphic (h : Woven P es c) (hg : c.Good) (hP : P.Executes es) :
    P.graph.Isomorphic c.tool.toGraph.labelled := by
  have hnodes : ∀ {x}, x ∈ P.graph.nodes ↔ c.graph.live x = true := by
    intro x
    constructor
    · rintro ⟨lower, upper, hx⟩
      exact ((h.mem_pieces hg hP).mp hx).2
    · intro hx
      obtain ⟨lower, upper, hm⟩ := (h.covers.order x).mp (hg.alloc.live_mem hx)
      exact ⟨lower, upper, (h.mem_pieces hg hP).mpr ⟨hm, hx⟩⟩
  have horder : ∀ {x}, x ∈ P.graph.nodes → x ∈ c.graph.order :=
    fun hx => hg.alloc.live_mem (hnodes.mp hx)
  refine ⟨c.graph.addr, ⟨?_, ?_, ?_⟩, fun x hx => ?_, fun x hx y hy => ?_⟩
  · exact fun x hx => hg.present_iff.mpr ⟨x, hnodes.mp hx, rfl⟩
  · exact fun x hx y _ he => (addr_inj (horder hx)).mp he
  · intro n hn
    obtain ⟨x, hx, rfl⟩ := hg.present_iff.mp hn
    exact ⟨x, hnodes.mpr hx, rfl⟩
  · have hnode : c.tool.nodes (c.graph.addr x) = some (c.graph.node x) :=
      hg.nodes_iff.mpr ⟨x, hnodes.mp hx, rfl, rfl⟩
    have hbounds : P.bounds x = ((c.graph.label x).lower, (c.graph.label x).upper) := by
      refine bounds_eq hx fun lower upper hp => ?_
      obtain ⟨hlower, hupper⟩ := h.covers.bounds x lower upper ((h.mem_pieces hg hP).mp hp).1
      rw [hlower, hupper]
    show (c.tool.nodes (c.graph.addr x)).elim _ (fun nd => (nd.type, nd.lower, nd.upper)) = _
    rw [hnode]
    show ((c.graph.data x).type, _) = (x.type, P.bounds x)
    rw [hg.alloc.type_eq (horder hx), hbounds]
    rfl
  · classical
    rw [hg.edges_addr]
    have hlink : c.graph.Link x y ↔ .edge x y ∈ P.pieces := by
      rw [h.mem_pieces hg hP]
      constructor
      · exact fun hxy => ⟨h.covers.made x y hxy, (hg.alloc.edges_live hxy).2⟩
      · exact fun hm => h.covers.link x y hm.1 hm.2
    simp only [hlink]
    rfl

/-- **The graph does not depend on the schedule.**  Every run of a program in which
all callbacks are delivered, in whatever order the runtime allows, succeeds and
leaves the reference graph of the program, and what is in the exit vectors is in
the entry vectors. -/
theorem run_isomorphic (env : Env) {o : Runtime} (hrun : Runtime.run es = some o)
    (hP : P.Executes es) :
    ∃ s, Tool.run env es = some s ∧ P.graph.Isomorphic s.toGraph.labelled ∧
      ∀ n k, s.toGraph.entriesFrom n k = s.toGraph.labelled.edges n k := by
  obtain ⟨c, hc, rfl⟩ := run_of_runtime env hrun
  have hg := run_good hc
  refine ⟨c.tool, tool_run hc, (woven_run hc (.of_executes hP)).isomorphic hg hP, fun n k => ?_⟩
  rw [hg.entriesFrom_eq, hg.edges_eq]

/-- Two regions: a team of two with a loop, of which one thread gets no chunk, and
a thread on its own. -/
def twoRegions : Program where
  order := [0, 1]
  nodup := by decide
  region r :=
    if r = 0 then
      { threads := 2
        phases := 2
        loops := fun t j => if j = 0 then [⟨0, 7, if t = 1 then [(0, 7)] else []⟩] else []
        threads_pos := by decide
        phases_pos := by decide }
    else
      { threads := 1
        phases := 1
        loops := fun _ _ => [⟨0, 3, [(0, 1), (2, 3)]⟩]
        threads_pos := by decide
        phases_pos := by decide }

/-- Thread 1 of the first region is late for its end. -/
def lateEnd : List Event :=
  [⟨0, .threadBegin⟩, ⟨1, .threadBegin⟩,
    ⟨0, .taskCreate (.initial 0) (.initial 0) .initial⟩,
    ⟨0, .parallelBegin (.initial 0) 0 2 2 2⟩,
    ⟨1, .implicitTask .scopeBegin 0 (.implicit 0 1) 2 1⟩,
    ⟨0, .implicitTask .scopeBegin 0 (.implicit 0 0) 2 0⟩,
    ⟨0, .extLoop .scopeBegin (.implicit 0 0) 0 7⟩,
    ⟨1, .extLoop .scopeBegin (.implicit 0 1) 0 7⟩,
    ⟨1, .extChunk (.implicit 0 1) 0 7 false⟩,
    ⟨0, .extLoop .scopeEnd (.implicit 0 0) 0 7⟩,
    ⟨0, .syncRegion .barrier .scopeBegin 0 (.implicit 0 0)⟩,
    ⟨1, .extLoop .scopeEnd (.implicit 0 1) 0 7⟩,
    ⟨1, .syncRegion .barrier .scopeBegin 0 (.implicit 0 1)⟩,
    ⟨0, .syncRegion .barrier .scopeEnd 0 (.implicit 0 0)⟩,
    ⟨0, .syncRegion .barrier .scopeBegin 0 (.implicit 0 0)⟩,
    ⟨1, .syncRegion .barrier .scopeEnd 0 (.implicit 0 1)⟩,
    ⟨1, .syncRegion .barrier .scopeBegin 0 (.implicit 0 1)⟩,
    ⟨0, .implicitTask .scopeEnd 0 (.implicit 0 0) 2 0⟩,
    ⟨0, .parallelEnd 0 (.initial 0)⟩,
    ⟨0, .parallelBegin (.initial 0) 1 1 1 1⟩,
    ⟨0, .implicitTask .scopeBegin 1 (.implicit 1 0) 1 0⟩,
    ⟨0, .extLoop .scopeBegin (.implicit 1 0) 0 3⟩,
    ⟨0, .extChunk (.implicit 1 0) 0 1 false⟩,
    ⟨1, .implicitTask .scopeEnd 0 (.implicit 0 1) 2 1⟩,
    ⟨0, .extChunk (.implicit 1 0) 2 3 false⟩,
    ⟨0, .extChunk (.implicit 1 0) 0 0 true⟩,
    ⟨0, .extLoop .scopeEnd (.implicit 1 0) 0 3⟩,
    ⟨0, .syncRegion .barrier .scopeBegin 1 (.implicit 1 0)⟩,
    ⟨0, .implicitTask .scopeEnd 1 (.implicit 1 0) 1 0⟩,
    ⟨0, .parallelEnd 1 (.initial 0)⟩]

theorem lateEnd_executes : twoRegions.Executes lateEnd := by
  rintro ((- | i) | ⟨- | - | r, - | - | t⟩ | n) <;> rfl

theorem run_isomorphic_lateEnd :
    ∃ s, Tool.run { clock := fun k => k } lateEnd = some s ∧
      twoRegions.graph.Isomorphic s.toGraph.labelled ∧
      ∀ n k, s.toGraph.entriesFrom n k = s.toGraph.labelled.edges n k := by
  have hrun : ∃ o, Runtime.run lateEnd = some o := ⟨_, rfl⟩
  obtain ⟨o, ho⟩ := hrun
  exact run_isomorphic { clock := fun k => k } ho lateEnd_executes

/-- Two runs of a program build the same graph. -/
theorem runs_isomorphic {env env' : Env} {es' : List Event} {c' : Config}
    (hrun : run env es = some c) (hrun' : run env' es' = some c') (hP : P.Executes es)
    (hP' : P.Executes es') : c.tool.toGraph.labelled.Isomorphic c'.tool.toGraph.labelled :=
  haveI : Nonempty Role := ⟨.root⟩
  .of_common ((woven_run hrun (.of_executes hP)).isomorphic (run_good hrun) hP)
    ((woven_run hrun' (.of_executes hP')).isomorphic (run_good hrun') hP')

end Config

end Tdg
