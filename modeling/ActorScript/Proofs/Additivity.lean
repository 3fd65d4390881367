import ActorScript.Proofs.Shadow
import ActorScript.Proofs.WholeTime

/-!
# Additivity

Two ticks with whole budgets come to where one tick with the sum of them comes.

The first of the two ticks is the beginning of the long one (`Run.shadow`), which
keeps the second budget as a surplus.  Where the first tick stops, the second one
comes back, and now both have the same budget: what is left of the first one is
nothing, or has gone into the `wait` at which the tick stopped.  From there on the
runs are level.  Only at a transient fault something of the first budget can be
lost, and there the script does not get on, whatever the budget.

## Main results

* `Run.level` — runs with equal budgets come to the same end.
* `Stops.takeUp` — the second tick and the long one are level from where the first
  one stopped.
* `budget_additive` — two ticks with natural numbers for budgets leave the program as
  one tick with their sum does.
-/

namespace ActorScript

namespace Machine

open Config Progress

variable {W : Type} {t : Tree} {root : StmtId} {c c' d d' e : Config W} {n : Nat}

/-! ## A surplus -/

/-- The second budget is greater by `n`. -/
def Surplus (n : Nat) (b b' : Budget) : Prop :=
  ∃ r : Nat, r + n ≤ 2 ^ 53 ∧ b.remaining = .ofInt r ∧ b'.remaining = .ofInt (r + n : Nat)

/-- A surplus stays what it is as long as everything is paid for. -/
theorem pays_surplus (n : Nat) : Pays Number.IsCount (Surplus n) where
  step {b b'} h hcan := by
    obtain ⟨r, hr, hb, hb'⟩ := h
    have hpos := (Budget.canStep_iff (by omega) hb).mp hcan
    refine ⟨(Budget.canStep_iff hr hb').mpr (by omega), r - 1, by omega, ?_, ?_⟩
    · exact Budget.payStep_ofInt (by omega) hb hpos
    · rw [Budget.payStep_ofInt hr hb' (by omega)]
      congr 2
      omega
  time {b b'} h htime := by
    obtain ⟨r, hr, hb, hb'⟩ := h
    have hpos := (Budget.hasTime_iff (by omega) hb).mp htime
    exact (Budget.hasTime_iff hr hb').mpr (by omega)
  spend {b b' owed} h hok hpaid := by
    obtain ⟨r, hr, hb, hb'⟩ := h
    obtain ⟨m, hm, rfl⟩ := hok
    obtain ⟨hleft, hrest⟩ := Budget.spend_ofInt hm (by omega) hb
    obtain ⟨hleft', hrest'⟩ := Budget.spend_ofInt hm hr hb'
    rw [hleft, Number.zero_eq_ofInt, Number.ofInt_le_iff (by omega) (by decide)] at hpaid
    rw [hleft', Number.zero_eq_ofInt, Number.ofInt_le_iff (by omega) (by decide)]
    refine ⟨by omega, r - m, by omega, hrest, ?_⟩
    rw [hrest']
    congr 2
    omega

variable [World W] {ms ms' : List (Transition W)} {o o' : Except Fault Flow}

/-! ## Level runs -/

/-- Where the same is left of two budgets, a stop for the one is a stop for the other. -/
theorem Config.Stops.mirror (h : Stops t c c') (hd : d.core = c.core)
    (hb : d.memory.budget.remaining = c.memory.budget.remaining) :
    ∃ d', Stops t d d' ∧ d'.core = c'.core := by
  have hcan : d.memory.budget.canStep = c.memory.budget.canStep := by
    unfold Budget.canStep
    rw [hb]
  have htime : d.memory.budget.hasTime = c.memory.budget.hasTime := by
    unfold Budget.hasTime
    rw [hb]
  have hleft : ∀ owed, d.left owed = c.left owed := by
    intro owed
    unfold left Budget.spend
    rw [hb]
  have hgoTo : ∀ control, (d.core.goTo control) = (c.core.goTo control) := by
    intro control
    rw [hd]
  have hgen : d.memory.generator = c.memory.generator := congrArg (·.memory.generator) hd
  cases h with
  | stall h =>
      cases h with
      | refused hcan' h =>
          exact ⟨_, .stall (.refused (hcan.trans hcan') (h.mirror hd)), hgoTo _⟩
      | faulted hcan' h hf =>
          refine ⟨_, .stall (.faulted (hcan.trans hcan') ?_ hf), hgoTo _⟩
          rw [hgen]
          exact h.mirror hd
      | waitRefused htime' h =>
          exact ⟨_, .stall (.waitRefused (htime.trans htime') (h.mirror hd)), hgoTo _⟩
      | waitFaulted htime' h hv hf =>
          refine ⟨_, .stall (.waitFaulted (htime.trans htime') (h.mirror hd) ?_ hf),
            hgoTo _⟩
          obtain ⟨b, k, rfl, -⟩ := exists_booked hd
          exact hv
  | @waiting id owed g p h hl hp =>
      have hp' : d.memory.progress.setFrame? id (.wait (d.left owed)) = some p := by
        rw [hleft, show d.memory.progress = _ from congrArg (·.memory.progress) hd]
        exact hp
      refine ⟨_, .waiting (h.mirror hd htime.trans) (hleft owed ▸ hl) hp', ?_⟩
      show ((d.core.drawn g).done p).goTo (.leave .suspended) =
        ((c.core.drawn g).done p).goTo (.leave .suspended)
      rw [hd]

/-- Two runs have come to the same end, but for what they leave of their budgets. -/
inductive Agrees (root : StmtId) (c d : Config W) : Prop
  | ended (hg : c.control.going = true) (h : d.core = c.core)
  | stopped (hc : c.control.going = false) (hd : d.control.going = false)
      (h : (d.restart root).core = (c.restart root).core)

/-- A run that begins with a stop. -/
theorem Run.of_stop (root : StmtId) (h : Run t c ms c') (ho : c'.outcome? = some o)
    (hstop : Stops t c d) :
    c'.control.going = false ∧ c'.restart root = d.restart root := by
  obtain ⟨ms', hrun⟩ := (Run.step hstop.outcome?_eq hstop.step (.refl d)).rest h ho
  obtain ⟨hcontrol, hrestart, -⟩ := hrun.of_stopped root hstop.not_going
  exact ⟨hcontrol ▸ hstop.not_going, hrestart⟩

/-- **Runs with equal budgets come to the same end.** -/
theorem Run.level (ht : t.Proper root) (hX : Run t c ms c') (ho : c'.outcome? = some o)
    (hY : Run t d ms' d') (ho' : d'.outcome? = some o') (hc : c.Sound t root)
    (hg : c.control.going = true) (hd : d.core = c.core)
    (hb : Surplus 0 c.memory.budget d.memory.budget)
    (hok : ∀ m ∈ ms, ∀ id owed g, m.before.Owes t id owed g → owed.IsCount) :
    Agrees root c' d' := by
  cases hX.shadow (pays_surplus 0) ht hc hg hd hb hok with
  | ended hrun hg' hd' _ =>
      obtain ⟨-, rfl⟩ := hrun.end_unique ((outcome?_of_core hd').trans ho) hY ho'
      exact .ended hg' hd'
  | @stopped _ d₁ c₁ c₂ hrun hd₁ hb₁ _ hstop _ hcontrol hrestart _ =>
      obtain ⟨r, -, hr, hr'⟩ := hb₁
      obtain ⟨d₂, hstop', hd₂⟩ := hstop.mirror hd₁ (hr'.trans hr.symm)
      obtain ⟨ms'', hrest⟩ := hrun.rest hY ho'
      obtain ⟨hg', hrestart'⟩ := hrest.of_stop root ho' hstop'
      refine .stopped (hcontrol ▸ hstop.not_going) hg' ?_
      rw [hrestart', hrestart]
      exact restart_core hd₂

/-! ## Taking up again -/

/-- A stall is for want of budget, or it is a stall with every budget. -/
theorem Config.Stalls.poor_or_stuck (h : Stalls t c c') :
    (c.memory.budget.canStep = false ∨ c.memory.budget.hasTime = false) ∨
      ∀ {d : Config W}, d.core = c.core → ∃ d', Stalls t d d' := by
  have hstuck : ∀ {f}, c.Fails t f → f.isFatal = false →
      ∀ {d : Config W}, d.core = c.core → ∃ d', Stalls t d d' := by
    intro f hfails hf d hd
    rcases (hfails.mirror hd).stalls hf with hstall | ⟨hstall, -⟩
    · exact ⟨_, hstall⟩
    · exact ⟨_, hstall⟩
  cases h with
  | refused hb => exact .inl (.inl hb)
  | waitRefused hb => exact .inl (.inr hb)
  | faulted _ h hf => exact .inr (hstuck (.step h) hf)
  | waitFaulted _ h hv hf => exact .inr (hstuck (.wait h hv) hf)

theorem Config.Stalls.restart_eq (h : Stalls t c c') :
    (c'.restart root).core = (c.restart root).core := by
  cases h <;> rfl

/-- Where a script cannot get on, every run ends as it began. -/
theorem Agrees.of_stalls {c₁ d₁ : Config W} (hX : Run t c ms c')
    (ho : c'.outcome? = some o) (hY : Run t d ms' d') (ho' : d'.outcome? = some o')
    (hd : d.core = c.core) (hc₁ : Stalls t c c₁) (hd₁ : Stalls t d d₁) :
    Agrees root c' d' := by
  obtain ⟨hg, hrestart⟩ := hX.of_stop root ho (.stall hc₁)
  obtain ⟨hg', hrestart'⟩ := hY.of_stop root ho' (.stall hd₁)
  refine .stopped hg hg' ?_
  rw [hrestart, hrestart', hc₁.restart_eq, hd₁.restart_eq]
  exact restart_core hd

/-- The second tick at a stall of the first one. -/
private theorem Agrees.of_stall {c₁ c₂ : Config W} (ht : t.Proper root)
    (h : Stalls t c₁ c₂) (hd : d.core = c₁.core)
    (hb : Surplus n c₁.memory.budget d.memory.budget) (hc : c.Sound t root)
    (hg : c.control.going = true) (hcore : c.core = c₁.core)
    (hn : c.memory.budget.remaining = .ofInt n)
    (hX : Run t c ms c') (ho : c'.outcome? = some o) (hY : Run t d ms' d')
    (ho' : d'.outcome? = some o')
    (hok : ∀ m ∈ ms, ∀ id owed g, m.before.Owes t id owed g → owed.IsCount) :
    Agrees root c' d' := by
  obtain ⟨r, hr, hb₁, hb'⟩ := hb
  rcases h.poor_or_stuck with hpoor | hstuck
  · -- nothing is left of the first budget
    have hzero : r = 0 := by
      rcases hpoor with hcan | htime
      · have hiff := Budget.canStep_iff (by omega) hb₁
        rw [hcan] at hiff
        exact Nat.eq_zero_of_not_pos fun hpos => Bool.noConfusion (hiff.mpr hpos)
      · have hiff := Budget.hasTime_iff (by omega) hb₁
        rw [htime] at hiff
        exact Nat.eq_zero_of_not_pos fun hpos => Bool.noConfusion (hiff.mpr hpos)
    rw [hzero, Nat.zero_add] at hb'
    exact hX.level ht ho hY ho' hc hg (hd.trans hcore.symm) ⟨n, by omega, hn, hb'⟩ hok
  · obtain ⟨_, hc₁⟩ := hstuck hcore
    obtain ⟨_, hd₁⟩ := hstuck hd
    exact .of_stalls hX ho hY ho' (hd.trans hcore.symm) hc₁ hd₁

/-- The second tick in a `wait` at which the first one stopped. -/
private theorem Agrees.of_wait {c₁ : Config W} {id : StmtId} {owed : Number}
    {g : Generator} {p : Progress} (ht : t.Proper root) (howes : c₁.Owes t id owed g)
    (hcount : owed.IsCount) (hl : ¬ c₁.left owed ≤ .zero)
    (hp : c₁.memory.progress.setFrame? id (.wait (c₁.left owed)) = some p)
    (hd : d.core = c₁.core) (hb : Surplus n c₁.memory.budget d.memory.budget)
    (hc : c.Sound t root) (hcore : c.core = (c₁.noted g p).core)
    (hn : c.memory.budget.remaining = .ofInt n)
    (hX : Run t c ms c') (ho : c'.outcome? = some o) (hY : Run t d ms' d')
    (ho' : d'.outcome? = some o')
    (hok : ∀ m ∈ ms, ∀ id owed g, m.before.Owes t id owed g → owed.IsCount) :
    Agrees root c' d' := by
  have hprogress : d.memory.progress = c₁.memory.progress :=
    congrArg (·.memory.progress) hd
  have howes' := howes.mirror hd ((pays_surplus n).time hb)
  obtain ⟨r, hr, hb₁, hb'⟩ := hb
  obtain ⟨m, hm, rfl⟩ := hcount
  have hleft₁ : c₁.left (.ofInt m) = .ofInt (m - r : Nat) :=
    (Budget.spend_ofInt hm (by omega) hb₁).1
  obtain ⟨hleftX, hrestX⟩ := Budget.spend_ofInt (m := m - r) (by omega) (by omega) hn
  obtain ⟨hleftY, hrestY⟩ := Budget.spend_ofInt hm hr hb'
  -- what the first tick has spent on the `wait` is what was left of its budget
  have hlt : r < m := by
    rw [hleft₁, Number.zero_eq_ofInt, Number.ofInt_le_iff (by omega) (by decide)] at hl
    omega
  have hleft : c.left (c₁.left (.ofInt m)) = d.left (.ofInt m) := by
    rw [hleft₁]
    refine hleftX.trans (Eq.trans ?_ hleftY.symm)
    congr 2
    omega
  rw [← hprogress] at hp
  obtain ⟨e, x, ms₁, rfl, hstep, hrunX, hcaseX⟩ :=
    hX.of_noted ho howes' hp (hcore.trans (noted_core hd).symm)
  obtain ⟨_, y, ms₂, -, -, hrunY, hcaseY⟩ := hY.of_owes ho' howes' hp
  rw [hleft] at hcaseX
  rcases hcaseX with ⟨hpaid, -, q, hq, rfl⟩ | ⟨hunpaid, -, q, hq, rfl⟩
  · rcases hcaseY with ⟨-, -, q', hq', rfl⟩ | ⟨hunpaid, -⟩
    · cases hq.symm.trans hq'
      refine hrunX.level ht ho hrunY ho' (hc.step ht hstep) rfl ?_ ?_
        fun m hm => hok m (List.mem_cons_of_mem _ hm)
      · show (d.core.drawn g).done q = c.core.done q
        rw [hcore, hd]
        rfl
      · refine ⟨n - (m - r), by omega, ?_, ?_⟩
        · rw [hleft₁]
          exact hrestX
        · refine hrestY.trans ?_
          congr 2
          omega
    · exact absurd hpaid hunpaid
  · rcases hcaseY with ⟨hpaid, -⟩ | ⟨-, -, q', hq', rfl⟩
    · exact absurd hpaid hunpaid
    · cases hq.symm.trans hq'
      obtain ⟨hcontrol, hrestart, -⟩ := hrunX.of_stopped root rfl
      obtain ⟨hcontrol', hrestart', -⟩ := hrunY.of_stopped root rfl
      refine .stopped (hcontrol ▸ rfl) (hcontrol' ▸ rfl) ?_
      rw [hrestart, hrestart']
      show ((d.core.drawn g).done q).restart root = (c.core.done q).restart root
      rw [hcore, hd]
      rfl

/-- **The second tick and the long one** are level from where the first tick stopped. -/
theorem Config.Stops.takeUp {c₁ c₂ : Config W} (ht : t.Proper root)
    (hc₁ : c₁.Sound t root) (hstop : Stops t c₁ c₂)
    (hcount : ∀ id owed g, c₁.Owes t id owed g → owed.IsCount) (hd : d.core = c₁.core)
    (hb : Surplus n c₁.memory.budget d.memory.budget) (hc : c.Sound t root)
    (hcore : c.core = (c₂.restart root).core) (hn : c.memory.budget.remaining = .ofInt n)
    (hX : Run t c ms c') (ho : c'.outcome? = some o) (hY : Run t d ms' d')
    (ho' : d'.outcome? = some o')
    (hok : ∀ m ∈ ms, ∀ id owed g, m.before.Owes t id owed g → owed.IsCount) :
    Agrees root c' d' := by
  have hg := hstop.going
  cases hstop with
  | stall h =>
      obtain ⟨e, hride, he, hbe⟩ := h.ride ht hc₁ hcore
      obtain ⟨pre, ms₁, rfl, hrun, -⟩ := hride.run hX ho
      have hcontrol : e.control = c₁.control := congrArg (·.control) he
      exact .of_stall ht h hd hb (hc.ride ht hride) (hcontrol ▸ hg) he (hbe ▸ hn)
        hrun ho hY ho'
        fun m hm => hok m (List.mem_append_right _ hm)
  | waiting howes hl hp =>
      obtain ⟨e, hride, he, hbe⟩ := (howes.ride ht hc₁ hp).mirror hcore
      obtain ⟨pre, ms₁, rfl, hrun, -⟩ := hride.run hX ho
      exact .of_wait ht howes (hcount _ _ _ howes) hl hp hd hb
        (hc.ride ht hride) he (hbe ▸ hn)
        hrun ho hY ho' fun m hm => hok m (List.mem_append_right _ hm)

end Machine

namespace Program

open Machine Machine.Config Progress

variable {W : Type} {t : Tree} {root : StmtId} {p q : Program}

/-- A program without the books of its ticks. -/
def lasting (p : Program) : Program :=
  { p with memory := p.memory.core, lastTransient := none }

/-- What is granted in a tick is the whole of a natural number. -/
theorem opening_remaining (p : Program) (w : W) {n : Nat} (hn : n ≤ 2 ^ 53) :
    (p.opening w (.ofInt n)).memory.budget.remaining = .ofInt n := by
  show (if Number.zero < .ofInt n then Number.ofInt n else .zero) = .ofInt n
  split
  · rfl
  · rename_i hpos
    rw [Number.zero_eq_ofInt, Number.ofInt_lt_iff (by decide) hn] at hpos
    rw [Nat.eq_zero_of_not_pos hpos, Number.zero_eq_ofInt]

/-- What programs make of runs that have come to the same end is the same. -/
theorem settle_agrees {c d : Config W} {o o' : Except Fault Flow} (hp : Settled t root p)
    (hq : Settled t root q) (hf : p.fault = q.fault) (hc : c.Sound t root)
    (ho : c.outcome? = some o) (hd : d.Sound t root) (ho' : d.outcome? = some o')
    (h : Agrees root c d) :
    (p.settle o c.memory).lasting = (q.settle o' d.memory).lasting ∧
    c.world = d.world := by
  obtain ⟨hover, -, hloops⟩ := hc.over_of_outcome ho
  obtain ⟨hover', -, hloops'⟩ := hd.over_of_outcome ho'
  have htree : (p.settle o c.memory).tree = (q.settle o' d.memory).tree := by
    rw [(settle_tree ..).1, (settle_tree ..).1, hp.tree, hq.tree]
  have hroot : (p.settle o c.memory).root = (q.settle o' d.memory).root := by
    rw [(settle_tree ..).2, (settle_tree ..).2, hp.root_eq, hq.root_eq]
  cases h with
  | ended _ hcore =>
      cases ho.symm.trans ((outcome?_of_core hcore).symm.trans ho')
      obtain ⟨hm, hf'⟩ := settle_congr o (congrArg Config.memory hcore.symm) hf
      refine ⟨?_, congrArg (·.world) hcore.symm⟩
      unfold lasting
      rw [htree, hroot, hm, hf']
  | stopped hg hg' hcore =>
      obtain ⟨hfc, -, -, hmc⟩ := settle_of_stop hp.root_eq hover hg
      obtain ⟨hfd, -, -, hmd⟩ := settle_of_stop hq.root_eq hover' hg'
      -- a run that is over has no loops at work
      have hm : (p.settle o c.memory).memory.core =
          (q.settle o' d.memory).memory.core := by
        rw [hmc, hmd, core_memory_of_loops hloops, core_memory_of_loops hloops', hcore]
      refine ⟨?_, congrArg (·.world) hcore.symm⟩
      unfold lasting
      rw [htree, hroot, hm, hfc, hfd, hf]

variable [World W]

/-- A program that is done or halted ignores a tick. -/
theorem tick_of_over {limit : Nat} {w : W} {budget : Number} {k : Tick W}
    (hover : (p.isHalted || p.isFinished) = true)
    (hk : p.advance? limit w budget = some k) :
    k.program = p ∧ k.world = w := by
  rcases advance?_eq_some hk with ⟨-, -, rfl⟩ | ⟨hgoing, -⟩
  · exact ⟨rfl, rfl⟩
  · rw [hover] at hgoing
    cases hgoing

section Additive

variable {a b limit₁ limit₂ limit : Nat} {w : W} {k₁ k₂ k : Tick W}

/-- Two ticks from where a program is between ticks, and the tick with both budgets. -/
private theorem lasting_additive (ht : t.Proper root) (hq : Settled t root q)
    (hwaits : q.memory.progress.WaitsFor Number.IsCount) (hab : a + b ≤ 2 ^ 53)
    (h₁ : q.advance? limit₁ w (.ofInt a) = some k₁)
    (ht₁ : TimedTick limit₁ q w (.ofInt a))
    (h₂ : k₁.program.advance? limit₂ k₁.world (.ofInt b) = some k₂)
    (ht₂ : TimedTick limit₂ k₁.program k₁.world (.ofInt b))
    (h : q.advance? limit w (.ofInt (a + b : Nat)) = some k) :
    k₂.program.lasting = k.program.lasting ∧ k₂.world = k.world := by
  have hnatural₁ := isNatural_ofInt (show a ≤ 2 ^ 53 by omega)
  have hnatural₂ := isNatural_ofInt (show b ≤ 2 ^ 53 by omega)
  have hq₁ := hq.tick ht h₁
  have hwaits₁ := waitsFor_tick hnatural₁ ht₁ hwaits h₁
  rcases hq.run_of_tick h with ⟨hover, -, rfl⟩ | ⟨hgoing, hsound, o, d, hrun, ho, rfl⟩
  · -- the program was done or halted
    obtain ⟨hk₁, hw₁⟩ := tick_of_over hover h₁
    rw [hk₁, hw₁] at h₂
    obtain ⟨hk₂, hw₂⟩ := tick_of_over hover h₂
    rw [hk₂, hw₂]
    exact ⟨rfl, rfl⟩
  rcases hq.run_of_tick h₁ with ⟨hover, -⟩ | ⟨-, hsound₁, o₁, c₁, hrun₁, ho₁, rfl⟩
  · rw [hgoing] at hover
    cases hover
  have hcount₁ := isCount_of_owes hnatural₁ ht₁ hwaits (hq.tree ▸ hrun₁)
  have hsurplus : Surplus b (q.opening w (.ofInt a)).memory.budget
      (q.opening w (.ofInt (a + b : Nat))).memory.budget :=
    ⟨a, hab, q.opening_remaining w (by omega), q.opening_remaining w hab⟩
  rw [hq.tree] at hcount₁
  have hd := hsound.run ht hrun
  have hc₁ := hsound₁.run ht hrun₁
  cases hrun₁.shadow (pays_surplus b) ht hsound₁ rfl (q.opening_core_eq w _ _) hsurplus
      hcount₁ with
  | ended hrun' hg hd' _ =>
      -- the first tick has come to the end, and the second one does nothing
      obtain ⟨-, rfl⟩ := hrun'.end_unique ((outcome?_of_core hd').trans ho₁) hrun ho
      have hover := settle_of_going hq.root_eq (hc₁.over_of_outcome ho₁).1 hg
      obtain ⟨hk₂, hw₂⟩ := tick_of_over hover h₂
      rw [hk₂, hw₂]
      exact settle_agrees hq hq rfl hc₁ ho₁ hd ho (.ended hg hd')
  | stopped hrun' hd₁ hb₁ hpoint hstop hmem hcontrol hrestart _ =>
      have hg : c₁.control.going = false := hcontrol ▸ hstop.not_going
      obtain ⟨hf₁, hhalted, hfinished, hm₁⟩ :=
        settle_of_stop hq.root_eq (hc₁.over_of_outcome ho₁).1 hg
      rcases hq₁.run_of_tick h₂ with ⟨hover, -⟩ | ⟨-, hsound₂, o₂, c₂, hrun₂, ho₂, rfl⟩
      · have hrunning := hrun₁.attested.halted.trans (Bool.or_eq_false_iff.mp hgoing).1
        rw [hhalted, hfinished, hrunning] at hover
        cases hover
      have hcount₂ := isCount_of_owes hnatural₂ ht₂ hwaits₁ (hq₁.tree ▸ hrun₂)
      rw [hq₁.tree] at hcount₂
      have hcore := opening_core hq₁.root_eq hm₁ (.ofInt b)
      rw [hrestart] at hcore
      obtain ⟨ms, hrest⟩ := hrun'.rest hrun ho
      have hagrees := hstop.takeUp ht hpoint (hcount₁ _ hmem) hd₁ hb₁ hsound₂ hcore
        (opening_remaining _ _ (by omega)) hrun₂ ho₂ hrest ho hcount₂
      exact settle_agrees hq₁ hq hf₁ (hsound₂.run ht hrun₂) ho₂ hd ho hagrees

/--
**Budgets add up.**  Ticked with natural numbers for budgets, and with times that are
integers, a program may get two budgets in two ticks or their sum in one.  If the world
is left to it, the outcome is the same but for the books of the ticks.
-/
theorem budget_additive {subject : ActorId} {settings : Settings} {es : List Event}
    (hstart : start t subject settings = .ok p)
    (hticks : Ticks
      (fun limit q (w : W) budget => IsNatural budget ∧ TimedTick limit q w budget)
      p es q)
    (hab : a + b ≤ 2 ^ 53)
    (h₁ : q.advance? limit₁ w (.ofInt a) = some k₁)
    (ht₁ : TimedTick limit₁ q w (.ofInt a))
    (h₂ : k₁.program.advance? limit₂ k₁.world (.ofInt b) = some k₂)
    (ht₂ : TimedTick limit₂ k₁.program k₁.world (.ofInt b))
    (h : q.advance? limit w (.ofInt (a + b : Nat)) = some k) :
    k₂.program.lasting = k.program.lasting ∧ k₂.world = k.world ∧
      k₂.program.memory.progress = k.program.memory.progress ∧
      k₂.program.memory.globals = k.program.memory.globals ∧
      k₂.program.memory.generator = k.program.memory.generator ∧
      k₂.program.memory.output = k.program.memory.output ∧
      k₂.program.isHalted = k.program.isHalted ∧
      k₂.program.isFinished = k.program.isFinished ∧
      k₂.program.fault = k.program.fault := by
  have hp := started_of_start hstart
  obtain ⟨hlasting, hworld⟩ := lasting_additive hp.proper (settled_of_ticks hp hticks)
    (waitsFor_of_ticks hp hticks) hab h₁ ht₁ h₂ ht₂ h
  exact ⟨hlasting, hworld, congrArg (·.memory.progress) hlasting,
    congrArg (·.memory.globals) hlasting, congrArg (·.memory.generator) hlasting,
    congrArg (·.memory.output) hlasting, congrArg (·.isHalted) hlasting,
    congrArg (·.isFinished) hlasting, congrArg (·.fault) hlasting⟩

end Additive

/-- The one time in the script is three. -/
private theorem timed_restless (limit : Nat) (hp : p.tree = restless) (w : W)
    (budget : Number) : TimedTick limit p w budget := by
  intro m _
  rw [hp]
  refine timed_of_numbers fun id duration hs => ?_
  match id, hs with
  | 0, hs =>
      cases hs
      exact ⟨3, by decide, rfl⟩
  | 1, hs | 2, hs | 3, hs | 4, hs | _ + 5, hs => cases hs

/-- The first of the two ticks stops in the `wait`, with two units of its time to go. -/
theorem budget_additive_restless :
    ∃ (p q : Program) (es : List Event) (k₁ k₂ k : Tick GridWorld),
      start restless 1 = .ok p ∧ Reached GridWorld p es q ∧
      q.advance? 100 (GridWorld.empty 2 2) (.ofInt (5 : Nat)) = some k₁ ∧
      k₁.program.advance? 100 k₁.world (.ofInt (4 : Nat)) = some k₂ ∧
      q.advance? 100 (GridWorld.empty 2 2) (.ofInt (9 : Nat)) = some k ∧
      k₁.program.memory.progress.frame 0 = .wait (.ofInt 2) ∧
      k₂.program.memory.progress = k.program.memory.progress := by
  have hrun : (start restless 1).toOption.map (fun p => do
      let k₀ ← p.advance? 100 (GridWorld.empty 1 1) (.ofInt (4 : Nat))
      let k₁ ← k₀.program.advance? 100 (GridWorld.empty 2 2) (.ofInt (5 : Nat))
      let _ ← k₁.program.advance? 100 k₁.world (.ofInt (4 : Nat))
      let _ ← k₀.program.advance? 100 (GridWorld.empty 2 2) (.ofInt (9 : Nat))
      return k₁.program.memory.progress.frame 0) = some (some (.wait (.ofInt 2))) := by
    decide +kernel
  obtain ⟨p, hstart, hticks⟩ := exists_of_start hrun
  simp only [Option.bind_eq_bind, Option.bind_eq_some_iff, Option.pure_def,
    Option.some.injEq] at hticks
  obtain ⟨k₀, hk₀, k₁, hk₁, k₂, hk₂, k, hk, hframe⟩ := hticks
  have hp := started_of_start hstart
  have htree₀ := (hp.settled.tick hp.proper hk₀).tree
  have htree₁ := ((hp.settled.tick hp.proper hk₀).tick hp.proper hk₁).tree
  have hnatural : IsNatural (.ofInt (4 : Nat)) := isNatural_ofInt (by decide)
  have hadditive := budget_additive hstart
    (.tick .start ⟨hnatural, timed_restless 100 hp.tree _ _⟩ hk₀) (by decide)
    hk₁ (timed_restless 100 htree₀ _ _) hk₂ (timed_restless 100 htree₁ _ _) hk
  exact ⟨p, k₀.program, _, k₁, k₂, k, hstart, .tick .start trivial hk₀, hk₁,
    hk₂, hk, hframe, hadditive.2.2.1⟩

end Program

end ActorScript
