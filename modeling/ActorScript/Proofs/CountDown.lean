import ActorScript.Proofs.LoopExit
import ActorScript.Proofs.Metering
import ActorScript.Proofs.WholeTime

/-!
# How a `wait` counts down

A `wait` works out its time when it first finds any time left, and takes what it can of
the budget.  If that is not all, what is still owed is noted in its entry of the table and
the tick is over.  The next tick comes back to the entry by quiet moves, whatever its
world and its budget are, so that every tick brings one visit until the time is paid.

## Main results

* `Budget.Within.spend_of_le`, `Budget.Within.spend_of_not_le` — a time that is there is
  spent exactly, and of any other all that is left is spent.
* `Config.Owes.countsOff` — one visit to a `wait`.
* `Waiting.comes`, `Waiting.tick`, `countsDown_of_later` — the way back to it, one tick,
  and all ticks.
* `CountsDown.accumulated` — as long as no difference is rounded, the `wait` completes
  when the times add up to what it owes.
* `wait_counts_down` — the same from the visit on that works out the time.
-/

namespace ActorScript

/-! ## Arithmetic -/

namespace Number

variable {a b : Number}

theorem units_infinity_eq : infinity.units = scaled (2 ^ 52) 972 := by
  have hs : infinity.significand = 2 ^ 52 := by decide
  have he : infinity.exponent = 972 := by decide
  rw [units, hs, he]

/-- Counted in units, an amount is below infinity too. -/
theorem IsAmount.units_lt_infinity (ha : a.IsAmount) : a.units < infinity.units := by
  rw [units_infinity_eq]
  by_cases h0 : a = zero
  · rw [h0, units_zero]
    exact Nat.mul_pos (Nat.two_pow_pos _) (Nat.two_pow_pos _)
  · have hc := ha.canonical h0
    have hhigh := hc.high
    exact scaled_lt hc.lt hc.low (.inl (Nat.le_refl _)) (by omega)

/-- An amount is compared in units with an amount and with infinity alike. -/
theorem IsAmount.le_iff_units (ha : a.IsAmount) (hb : b.IsAmount ∨ b = infinity) :
    a ≤ b ↔ a.units ≤ b.units := by
  rcases hb with hb | rfl
  · exact le_iff ha hb
  · have hle : a ≤ infinity := by
      have hlt := ha.lt_infinity
      rw [lt_iff_view] at hlt
      rw [le_iff_view, hlt]
      rfl
    exact ⟨fun _ => Nat.le_of_lt ha.units_lt_infinity, fun _ => hle⟩

end Number

namespace Budget

variable {granted owed : Number} {b : Budget}

theorem Within.amount_or_infinity (h : b.Within granted) :
    b.remaining.IsAmount ∨ b.remaining = .infinity := by
  cases h with
  | endless _ hr => exact .inr hr
  | amount _ hr => exact .inl hr

/-- A time that is there is spent in full. -/
theorem Within.spend_of_le (h : b.Within granted) (ho : owed.IsAmount)
    (hle : owed ≤ b.remaining) : (b.spend owed).1 = owed := by
  cases h with
  | endless _ hr => exact (spend_infinity ho hr).1
  | amount _ hr =>
      rw [Number.le_iff ho hr] at hle
      rw [spend_eq ho hr]
      by_cases hlt : owed.units < b.remaining.units
      · exact if_pos hlt
      · rw [if_neg hlt]
        exact hr.eq_of_units ho (by omega)

/-- Of a time that is not there all that is left is spent, and some of it is still
owed. -/
theorem Within.spend_of_not_le (h : b.Within granted) (ho : owed.IsAmount)
    (hlt : ¬ owed ≤ b.remaining) :
    (b.spend owed).1 = b.remaining ∧ b.remaining - b.remaining = .zero ∧
      .zero < owed - b.remaining ∧ ¬ owed - b.remaining ≤ .zero := by
  rw [ho.le_iff_units h.amount_or_infinity] at hlt
  cases h with
  | endless _ hr =>
      rw [hr] at hlt
      exact absurd (Nat.le_of_lt ho.units_lt_infinity) hlt
  | amount _ hr =>
      obtain ⟨hleft, hpos⟩ := ho.sub_pos hr (by omega)
      refine ⟨?_, hr.sub_self, Number.pos_of_units hleft hpos, ?_⟩
      · rw [spend_eq ho hr]
        exact if_neg (by omega)
      · rw [Number.le_iff hleft Number.isAmount_zero, Number.units_zero]
        omega

end Budget

/-! ## One visit -/

namespace Machine

open Config Progress

variable {W : Type}

namespace Transition

/-- The step comes to a `wait`. -/
def Visits (t : Tree) (id : StmtId) (m : Transition W) : Prop :=
  ∃ duration, m.before.At t id (.wait duration)

/-- The step does nothing that could be seen, and does not come to the `wait`. -/
def Beside (t : Tree) (id : StmtId) (m : Transition W) : Prop :=
  m.event = none ∧ ¬ m.Visits t id

/-- What becomes of a `wait` that owes a time: it completes and leaves the rest of the
budget to others, or it takes all of the budget and owes the difference. -/
inductive Pays (id : StmtId) (owed : Number) (m : Transition W) : Option Number → Prop
  | completes (hle : owed ≤ m.before.memory.budget.remaining)
      (he : m.event = some (.waited id)) (hc : m.after.control = .leave .completed)
      (hr : m.after.memory.budget.remaining = m.before.memory.budget.remaining - owed)
      (hn : m.after.memory.progress.node id = idleNode) : Pays id owed m none
  | suspends (hlt : ¬ owed ≤ m.before.memory.budget.remaining) (he : m.event = none)
      (hc : m.after.control = .leave .suspended)
      (hr : m.after.memory.budget.remaining = .zero)
      (hpos : .zero < owed - m.before.memory.budget.remaining)
      (hf : m.after.memory.progress.frame id =
        .wait (owed - m.before.memory.budget.remaining)) :
      Pays id owed m (some (owed - m.before.memory.budget.remaining))

/-- A visit to a `wait` that owes a time.  It changes neither the variables, the output,
the counts nor the world; so it is no step that is counted. -/
structure CountsOff (t : Tree) (id : StmtId) (owed : Number) (m : Transition W)
    (rest : Option Number) : Prop where
  visits : m.Visits t id
  amount : owed.IsAmount
  remaining : m.before.memory.budget.remaining.IsAmount ∨
    m.before.memory.budget.remaining = .infinity
  pays : m.Pays id owed rest
  effectless : m.Effectless

end Transition

/-- A `wait` is in progress: the table leads to it, and has the time that it still
owes. -/
structure Underway (t : Tree) (root id : StmtId) (owed : Number) (p : Progress) :
    Prop where
  path : ∃ k ls, Path t p root id k ls
  stmt : ∃ duration, t.stmt? id = some (.wait duration)
  armed : p.isArmed id = true
  frame : p.frame id = .wait owed

variable [World W] {t : Tree} {root id : StmtId} {c c' : Config W} {e : Option Event}
  {owed granted : Number} {g : Generator} {d : ExprId}

omit [World W] in
/-- A `wait` is never passed by a quiet move. -/
theorem Config.Quiet.not_at_wait (h : Quiet t c c') : ¬ c.At t id (.wait d) := by
  intro hat
  cases h with
  | pass hc ha =>
      cases hat.control.symm.trans hc
      rw [hat.armed] at ha
      cases ha
  | sequence h | branch h | noBranch h | «while» h | forEach h | skip h =>
      cases hat.control.symm.trans h.control
      cases hat.stmt.symm.trans h.stmt
  | whileRound h | forEachRound h | exhausted h | unlisted h =>
      cases hat.control.symm.trans h.control
  | next hc | sequenceEnd hc | branchEnd hc | roundEnd hc | broken hc | unwind hc
  | passFault hc => cases hat.control.symm.trans hc
  | ended h =>
      rw [outcome?_of_enter hat.control] at h
      cases h

/-- What a `wait` does that has no time of its own yet. -/
theorem Config.Unready.step_cases (h : c.Unready t id d) (hstep : Step t c e c') :
    (c.memory.budget.hasTime = false ∧ e = none ∧ c' = c.suspend) ∨
    (c.memory.budget.hasTime = true ∧ ∃ f,
      ((c.scope t).duration d).Fails c.memory.generator f ∧ e = none ∧
        c' = c.goTo (.raise f)) ∨
    (c.memory.budget.hasTime = true ∧ ∃ time g,
      ((c.scope t).duration d).Yields c.memory.generator time g ∧
        c.Owes t id (time.maxNum .zero) g) := by
  rw [← step?_eq_some_iff, h.step?_eq] at hstep
  rcases attempt_eq_some hstep with ⟨hb, hc', he⟩ | ⟨hb, f, hf, hc', he⟩
    | ⟨hb, time, g, hv, -⟩
  · exact .inl ⟨hb, he, hc'⟩
  · exact .inr (.inl ⟨hb, f, hf, he, hc'⟩)
  · exact .inr (.inr ⟨hb, time, g, hv, .first h hb hv⟩)

/-- **A visit** to a `wait` that owes a time.  If it does not complete, the table leads
back to it. -/
theorem Config.Owes.countsOff (ht : t.Proper root) (hc : c.Sound t root)
    (hw : c.memory.budget.Within granted) (ho : c.Owes t id owed g)
    (hstep : Step t c e c') :
    c'.memory.generator = g ∧ ∃ rest, Transition.CountsOff t id owed ⟨c, e, c'⟩ rest ∧
      ∀ left ∈ rest, Underway t root id left c'.memory.progress := by
  obtain ⟨⟨d, hat⟩, hamount⟩ := ho.amount hc
  rw [← step?_eq_some_iff, ho.step?_eq, countDown?_eq, drawn_left,
    drawn_progress] at hstep
  by_cases hle : owed ≤ c.memory.budget.remaining
  · have hspent := hw.spend_of_le hamount hle
    have hleft : c.left owed ≤ .zero := by
      rw [left, hspent]
      exact hamount.sub_self_le
    rw [if_pos hleft] at hstep
    obtain ⟨p, hp, hmove⟩ := Option.map_eq_some_iff.mp hstep
    cases hmove
    have hr : (((c.drawn g).spent owed).done p).memory.budget.remaining =
        c.memory.budget.remaining - owed := by
      show c.memory.budget.remaining - (c.memory.budget.spend owed).1 = _
      rw [hspent]
    have hn : p.node id = idleNode := by rw [node_finish? hp, if_pos rfl]
    refine ⟨rfl, none, ?_, nofun⟩
    exact ⟨⟨d, hat⟩, hamount, hw.amount_or_infinity, .completes hle rfl rfl hr hn,
      ⟨rfl, rfl, rfl, rfl⟩⟩
  · obtain ⟨hspent, hzero, hpos, hnot⟩ := hw.spend_of_not_le hamount hle
    have hleft : c.left owed = owed - c.memory.budget.remaining := by rw [left, hspent]
    rw [hleft, if_neg hnot] at hstep
    obtain ⟨p, hp, hmove⟩ := Option.map_eq_some_iff.mp hstep
    cases hmove
    have hr : (((c.drawn g).spent owed).done p).suspend.memory.budget.remaining =
        .zero := by
      show c.memory.budget.remaining - (c.memory.budget.spend owed).1 = _
      rw [hspent, hzero]
    have hn := node_setFrame? hp id
    rw [if_pos rfl] at hn
    have hframe : p.frame id = .wait (owed - c.memory.budget.remaining) := by
      rw [frame_eq, hn]
    refine ⟨rfl, some _, ⟨⟨d, hat⟩, hamount, hw.amount_or_infinity,
      .suspends hle rfl rfl hr hpos hframe, ⟨rfl, rfl, rfl, rfl⟩⟩, ?_⟩
    rintro _ ⟨⟩
    refine ⟨⟨_, _, (hc.of_at hat).1.congr ht (agreeOff_of_setFrame? t hp)⟩,
      ⟨d, hat.stmt⟩, ?_, hframe⟩
    show p.isArmed id = true
    rw [isArmed_eq, hn, ← hat.armed, isArmed_eq]

/-- No visit is made while a run is on its way out. -/
theorem Run.beside_of_stopped {ms : List (Transition W)} (h : Run t c ms c')
    (hc : c.control = .leave .suspended) : ∀ m ∈ ms, m.Beside t id := by
  intro m hm
  have hg : c.control.going = false := by
    rw [hc]
    rfl
  obtain ⟨-, -, hms⟩ := h.of_stopped id hg
  refine ⟨(hms m hm).1, ?_⟩
  rintro ⟨d, hat⟩
  obtain ⟨⟨done, hdone⟩, -⟩ := h.of_mem hm
  have hcontrol := (hdone.of_stopped id hg).1
  rw [hat.control, hc] at hcontrol
  cases hcontrol

end Machine

/-! ## Ticks -/

namespace Program

open Machine Machine.Config Progress

variable {W : Type} [World W] {t : Tree} {root id : StmtId} {p q : Program}
  {owed : Number}

/-- `Later W p ticks q`: further ticks lead from `p` to `q`, with any budgets and any
worlds, and `ticks` has the moves of each of them. -/
inductive Later (W : Type) [World W] :
    Program → List (List (Transition W)) → Program → Prop
  | now (p : Program) : Later W p [] p
  | tick {p q : Program} {ticks : List (List (Transition W))} {limit : Nat} {w : W}
      {budget : Number} {k : Tick W} (hk : p.advance? limit w budget = some k)
      (h : Later W k.program ticks q) : Later W p (p.moves limit w budget :: ticks) q

theorem Later.of_cons {ms : List (Transition W)} {ticks : List (List (Transition W))}
    (h : Later W p (ms :: ticks) q) :
    ∃ limit w budget k, p.advance? limit w budget = some k ∧ p.moves limit w budget = ms ∧
      Later W k.program ticks q := by
  cases h with
  | tick hk h => exact ⟨_, _, _, _, hk, rfl, h⟩

/-- A tick comes back to a `wait` that owes a time.  Nothing on the way can be seen, what
is owed is what the table has, and the generator is left alone. -/
structure Resumes (t : Tree) (id : StmtId) (owed : Number) (down : List (Transition W))
    (m : Transition W) (rest : Option Number) : Prop where
  beside : ∀ x ∈ down, x.Beside t id
  frame : m.before.memory.progress.frame id = .wait owed
  generator : m.after.memory.generator = m.before.memory.generator
  countsOff : m.CountsOff t id owed rest

/-- The tick that starts here comes to the `wait`, whether it ends or not. -/
def Comes (t : Tree) (id : StmtId) (owed : Number) (p : Program) (w : W)
    (budget : Number) :
    Prop :=
  ∃ down m rest, Run t (p.opening w budget) (down ++ [m]) m.after ∧
    Resumes t id owed down m rest

/-- `CountsDown t id owed ticks rs left`: over some ticks a `wait` that owes a time is
visited once in each of them until it completes.  `rs` are the budgets that the visits
find, and `left` is what is owed in the end. -/
inductive CountsDown (t : Tree) (id : StmtId) :
    Option Number → List (List (Transition W)) → List Number → Option Number → Prop
  | paid (ticks : List (List (Transition W))) : CountsDown t id none ticks [] none
  | pending (owed : Number) : CountsDown t id (some owed) [] [] (some owed)
  | tick {owed : Number} {down up : List (Transition W)} {m : Transition W}
      {rest left : Option Number} {ticks : List (List (Transition W))} {rs : List Number}
      (hm : Resumes t id owed down m rest) (hup : rest ≠ none → ∀ x ∈ up, x.Beside t id)
      (h : CountsDown t id rest ticks rs left) :
      CountsDown t id (some owed) ((down ++ m :: up) :: ticks)
        (m.before.memory.budget.remaining :: rs) left

/-- A program that has a tick to take. -/
structure Poised (t : Tree) (root : StmtId) (p : Program) : Prop where
  settled : Settled t root p
  size : p.memory.progress.nodes.size = t.stmts.size
  going : (p.isHalted || p.isFinished) = false

omit [World W] in
theorem Poised.fit (h : Poised t root p) (w : W) (budget : Number) :
    Fit t root (p.opening w budget) :=
  ⟨sound_opening h.settled h.going w budget, h.size⟩

/-- Between two ticks a `wait` owes some time. -/
structure Waiting (t : Tree) (root id : StmtId) (owed : Number) (p : Program) : Prop
    extends Poised t root p where
  underway : Underway t root id owed p.memory.progress

/-- A run that comes to a `wait` which does not complete leaves the program waiting. -/
theorem waiting_of_run {w : W} {budget : Number} {c : Config W}
    {down up : List (Transition W)} {m : Transition W} {rest : Option Number}
    {outcome : Except Fault Flow} (ht : t.Proper root) (hp : Poised t root p)
    (hrun : Run t (p.opening w budget) (down ++ m :: up) c)
    (ho : c.outcome? = some outcome) (hm : m.CountsOff t id owed rest)
    (hu : ∀ left ∈ rest, Underway t root id left m.after.memory.progress) :
    (∀ left ∈ rest, Waiting t root id left (p.settle outcome c.memory)) ∧
      (rest ≠ none → ∀ x ∈ up, x.Beside t id) := by
  cases hm.pays with
  | completes => exact ⟨nofun, fun h => absurd rfl h⟩
  | suspends _ _ hc =>
      obtain ⟨-, -, hup⟩ := hrun.split
      refine ⟨fun left hleft => ?_, fun _ => hup.beside_of_stopped hc⟩
      have hg : m.after.control.going = false := by
        rw [hc]
        rfl
      -- On its way out the run leaves the table as the visit has left it.
      obtain ⟨hcontrol, hrestart, -⟩ := hup.of_stopped root hg
      have hprogress : c.memory.progress = m.after.memory.progress :=
        congrArg (·.memory.progress) hrestart
      have hend := (hp.fit w budget).run ht hrun
      have hover := (hend.sound.over_of_outcome ho).1
      obtain ⟨-, hhalted, hfinished, -⟩ :=
        settle_of_stop hp.settled.root_eq hover (by rw [hcontrol]; exact hg)
      have hrunning : c.memory.halted = false :=
        hrun.attested.halted.trans (Bool.or_eq_false_iff.mp hp.going).1
      refine ⟨⟨⟨(settle_tree ..).1.trans hp.settled.tree,
        (settle_tree ..).2.trans hp.settled.root_eq, ?_⟩, ?_, ?_⟩, ?_⟩
      · rw [settle_progress]
        exact wellFormed_of_sound hend.sound ho
      · rw [settle_progress]
        exact hend.size
      · rw [hhalted, hrunning, hfinished]
        rfl
      · rw [settle_progress, hprogress]
        exact hu left hleft

/-- **The next tick** comes back to the `wait`, whatever its world and its budget are. -/
theorem Waiting.comes (ht : t.Proper root) (hground : t.Grounded)
    (h : Waiting t root id owed p) (w : W) (budget : Number) :
    ∃ down m rest, Run t (p.opening w budget) (down ++ [m]) m.after ∧
      Resumes t id owed down m rest ∧
      ∀ left ∈ rest, Underway t root id left m.after.memory.progress := by
  obtain ⟨⟨k, ls, hpath⟩, ⟨d, hstmt⟩, harmed, hframe⟩ := h.underway
  -- The path is in the table, which neither the world nor the budget has a part in.
  have hride : Ride t (p.opening w budget)
      ((p.opening w budget).placed (.enter id) k ls) := by
    have hopen : (p.opening w budget).restart root = p.opening w budget := by
      rw [← h.settled.root_eq]
      rfl
    have hdown := Path.ride (c := p.opening w budget) hpath
    rwa [hopen] at hdown
  obtain ⟨down, hrun, hquiet⟩ := hride.exists_quiet
  have hfit : Fit t root ((p.opening w budget).placed (.enter id) k ls) :=
    (h.fit w budget).run ht hrun
  have howes : ((p.opening w budget).placed (.enter id) k ls).Owes t id owed
      p.memory.generator :=
    .again ⟨rfl, harmed, hstmt⟩ hframe
  obtain ⟨e, c, hstep⟩ := hfit.exists_step ht hground
  obtain ⟨hgen, rest, hcounts, hleft⟩ :=
    howes.countsOff ht hfit.sound (Budget.within_grant budget) hstep
  refine ⟨down, _, rest, hrun.trans (.step howes.outcome?_eq hstep (.refl c)),
    ⟨fun x hx => ⟨(hquiet x hx).1, ?_⟩, hframe, hgen, hcounts⟩, hleft⟩
  rintro ⟨d', hat⟩
  exact (hquiet x hx).2.not_at_wait hat

/-- **One more tick** brings one more visit. -/
theorem Waiting.tick {limit : Nat} {w : W} {budget : Number} {k : Tick W}
    (ht : t.Proper root) (hground : t.Grounded) (h : Waiting t root id owed p)
    (hk : p.advance? limit w budget = some k) :
    ∃ down m up rest, p.moves limit w budget = down ++ m :: up ∧
      Resumes t id owed down m rest ∧ (∀ left ∈ rest, Waiting t root id left k.program) ∧
      (rest ≠ none → ∀ x ∈ up, x.Beside t id) := by
  rcases h.settled.run_of_tick hk with ⟨hover, -⟩ | ⟨-, -, outcome, c, hrun, ho, rfl⟩
  · rw [h.going] at hover
    cases hover
  obtain ⟨down, m, rest, hvisit, hm, hleft⟩ := h.comes ht hground w budget
  -- There is one run only, so that the moves of the tick begin with the way to the visit.
  obtain ⟨up, hup⟩ := hvisit.rest hrun ho
  obtain ⟨hmoves, -⟩ := hrun.end_unique ho (hvisit.trans hup) ho
  rw [List.append_assoc, List.singleton_append] at hmoves
  rw [hmoves] at hrun
  exact ⟨down, m, up, rest, hmoves, hm,
    waiting_of_run ht h.toPoised hrun ho hm.countsOff hleft⟩

/-- **All ticks**, for a `wait` that owes a time or has been paid. -/
theorem countsDown_of_later {ticks : List (List (Transition W))} (ht : t.Proper root)
    (hground : t.Grounded) (h : Later W p ticks q) :
    ∀ {rest : Option Number}, (∀ o ∈ rest, Waiting t root id o p) →
      ∃ rs left, CountsDown t id rest ticks rs left ∧ ∀ o ∈ left,
        Waiting t root id o q := by
  induction h with
  | now p =>
      intro rest hrest
      cases rest with
      | none => exact ⟨[], none, .paid [], nofun⟩
      | some o => exact ⟨[], some o, .pending o, hrest⟩
  | tick hk _ ih =>
      intro rest hrest
      cases rest with
      | none => exact ⟨[], none, .paid _, nofun⟩
      | some o =>
          obtain ⟨down, m, up, rest, hmoves, hm, hnext, hup⟩ :=
            (hrest o rfl).tick ht hground hk
          obtain ⟨rs, left, hdown, hleft⟩ := ih hnext
          rw [hmoves]
          exact ⟨_, left, .tick hm hup hdown, hleft⟩

/-! ## Times that add up -/

/-- Each difference that is formed on the way from a time owed is exact. -/
def Exact : Number → List Number → Prop
  | _, [] => True
  | owed, r :: rs => owed ≤ r ∨ owed.units = r.units + (owed - r).units ∧
      Exact (owed - r) rs

/-- All the time that some visits find, in units. -/
def total : List Number → Nat
  | [] => 0
  | r :: rs => r.units + total rs

omit [World W] in
/-- **If no difference is rounded**, the `wait` completes on the first visit by which the
times that it found add up to what it owes. -/
theorem CountsDown.accumulated {m : Transition W} {rest left : Option Number}
    {ticks : List (List (Transition W))} {rs : List Number}
    (h : CountsDown t id rest ticks rs left) (hm : m.CountsOff t id owed rest)
    (hexact : Exact owed (m.before.memory.budget.remaining :: rs)) :
    (left = none ↔ owed.units ≤ total (m.before.memory.budget.remaining :: rs)) ∧
      ∀ former, former <+: rs → former ≠ rs →
        total (m.before.memory.budget.remaining :: former) < owed.units := by
  induction h generalizing m owed with
  | paid ticks =>
      cases hm.pays with
      | completes hle =>
          rw [hm.amount.le_iff_units hm.remaining] at hle
          exact ⟨by simpa [total] using hle,
            fun _ hnil hne => absurd (List.prefix_nil.mp hnil) hne⟩
  | pending o =>
      cases hm.pays with
      | suspends hlt =>
          rw [hm.amount.le_iff_units hm.remaining] at hlt
          exact ⟨by simpa [total] using hlt,
            fun _ hnil hne => absurd (List.prefix_nil.mp hnil) hne⟩
  | @tick o down up m' rest left ticks rs hm' _ _ ih =>
      cases hm.pays with
      | suspends hlt =>
          obtain ⟨hdiff, hexact⟩ := hexact.resolve_left hlt
          obtain ⟨hiff, hformer⟩ := ih hm'.countsOff hexact
          rw [hm.amount.le_iff_units hm.remaining] at hlt
          refine ⟨?_, fun former hprefix hne => ?_⟩
          · rw [hiff]
            simp only [total]
            omega
          · rw [total]
            rcases List.prefix_cons_iff.mp hprefix with rfl | ⟨more, rfl, hmore⟩
            · rw [total]
              omega
            · have hless := hformer more hmore fun h => hne (by rw [h])
              omega

/--
**How a `wait` counts down.**  Take any visit to a `wait` that has no time of its own yet,
in any tick of a program that has been started, whatever the worlds and the budgets were.

* If no time is left, nothing happens but that the tick is over.
* If the time cannot be worked out, the fault is raised.
* Otherwise the time is a finite number and is worked out once.  Of it, or of zero if it
  is negative, each visit takes what is there, `CountsOff`: on the first visit that finds
  all that is still owed the `wait` completes, and what it does not take is left; until
  then it takes everything, notes the difference, which is positive, and the tick is over.
  There is one visit in each tick, `CountsDown`, and while something is owed the next tick
  `Comes` to it.  If no difference is rounded, the `wait` completes on the first visit by
  which the times that it found add up to what it owes.
-/
theorem wait_counts_down {subject : ActorId} {settings : Settings}
    {es : List Event} {w : W} {budget : Number} {down : List (Transition W)}
    {m : Transition W} {d : ExprId} (hstart : start t subject settings = .ok p)
    (h : Reached W p es q) (hgoing : (q.isHalted || q.isFinished) = false)
    (hrun : Run t (q.opening w budget) (down ++ [m]) m.after)
    (hat : m.before.At t id (.wait d))
    (hfirst : ∀ o, m.before.memory.progress.frame id ≠ .wait o) :
    (¬ .zero < m.before.memory.budget.remaining ∧ m.event = none ∧
      m.after = m.before.suspend) ∨
    (.zero < m.before.memory.budget.remaining ∧ ∃ f,
      ((m.before.scope t).duration d).Fails m.before.memory.generator f ∧ m.event = none ∧
        m.after = m.before.goTo (.raise f)) ∨
    (.zero < m.before.memory.budget.remaining ∧ ∃ time rest,
      ((m.before.scope t).duration d).Yields m.before.memory.generator time
        m.after.memory.generator ∧
      time.isFinite = true ∧ m.CountsOff t id (time.maxNum .zero) rest ∧
      ∀ up ticks q', Later W q ((down ++ m :: up) :: ticks) q' →
        (rest ≠ none → ∀ x ∈ up, x.Beside t id) ∧
        ∃ rs left, CountsDown t id rest ticks rs left ∧
          (∀ o ∈ left, ∀ (w : W) (budget : Number), q'.Comes t id o w budget) ∧
          (Exact (time.maxNum .zero) (m.before.memory.budget.remaining :: rs) →
            (left = none ↔
              (time.maxNum .zero).units ≤
                total (m.before.memory.budget.remaining :: rs)) ∧
            ∀ former, former <+: rs → former ≠ rs →
              total (m.before.memory.budget.remaining :: former) <
                (time.maxNum .zero).units)) := by
  have hp := started_of_start hstart
  have hground := Tree.grounded_of_validate (validate_of_start hstart)
  have hq : Poised t p.root q := ⟨settled_of_ticks hp h, size_of_ticks hstart h, hgoing⟩
  have hopening := (hq.fit w budget).sound
  obtain ⟨hdown, hstep, -⟩ := hrun.split
  rcases Unready.step_cases ⟨hat, hfirst⟩ hstep with
    ⟨hb, he, hc⟩ | ⟨hb, hf⟩ | ⟨hb, time, g, hv, howes⟩
  · exact .inl ⟨of_decide_eq_false hb, he, hc⟩
  · exact .inr (.inl ⟨of_decide_eq_true hb, hf⟩)
  · obtain ⟨hgen, rest, hm, hleft⟩ :=
      howes.countsOff hp.proper (hopening.run hp.proper hdown)
      ((solvent_opening q w budget).run hp.proper hopening hdown).within hstep
    rw [← hgen] at hv
    refine .inr
      (.inr ⟨of_decide_eq_true hb, time, rest, hv, Scope.isFinite_of_duration hv, hm,
        fun up ticks q' hlater => ?_⟩)
    obtain ⟨limit, w, budget, k, hk, hmoves, hlater⟩ := hlater.of_cons
    rcases hq.settled.run_of_tick hk with ⟨hover, -⟩ | ⟨-, -, outcome, c, hrun, ho, rfl⟩
    · rw [hgoing] at hover
      cases hover
    rw [hmoves] at hrun
    obtain ⟨hwaiting, hup⟩ := waiting_of_run hp.proper hq hrun ho hm hleft
    obtain ⟨rs, left, hcounts, hlast⟩ :=
      countsDown_of_later hp.proper hground hlater hwaiting
    refine ⟨hup, rs, left, hcounts, fun o ho w budget => ?_, hcounts.accumulated hm⟩
    obtain ⟨down, m, rest, hrun, hm, -⟩ := (hlast o ho).comes hp.proper hground w budget
    exact ⟨down, m, rest, hrun, hm⟩

/-- After two conditions a tick of four units has two left for a `wait` of three.  Every
next tick comes back to it, with one to go. -/
theorem wait_counts_down_restless :
    ∃ p k, start restless 1 = .ok p ∧
      p.advance? 100 (GridWorld.empty 1 1) (.ofInt 4) = some k ∧
      ∃ m ∈ p.moves 100 (GridWorld.empty 1 1) (.ofInt 4),
        m.before.memory.budget.remaining = .ofInt 2 ∧
        m.CountsOff restless 0 (.ofInt 3) (some (.ofInt 1)) ∧
        ∀ (w : GridWorld) (budget : Number),
          k.program.Comes restless 0 (.ofInt 1) w budget := by
  have hrun : (start restless 1).toOption.map (fun p =>
      (p.advance? 100 (GridWorld.empty 1 1) (.ofInt 4)).bind fun _ =>
        (p.moves 100 (GridWorld.empty 1 1) (.ofInt 4))[6]?.map fun m =>
          (m.before.control, m.before.memory.progress.isArmed 0,
            m.before.memory.progress.frame 0, m.before.memory.budget.remaining,
            m.after.control)) =
      some (some (.enter 0, true, .fresh, .ofInt 2, .leave .suspended)) := by
    decide +kernel
  obtain ⟨p, hstart, hfacts⟩ := exists_of_start hrun
  obtain ⟨k, hk, hfacts⟩ := Option.bind_eq_some_iff.mp hfacts
  obtain ⟨m, hget, hfacts⟩ := Option.map_eq_some_iff.mp hfacts
  simp only [Prod.mk.injEq] at hfacts
  obtain ⟨hcontrol, harmed, hframe, hr, hafter⟩ := hfacts
  have hgoing := (started_of_start hstart).going
  have hmem := List.mem_of_getElem? hget
  obtain ⟨down, up, hmoves⟩ := List.append_of_mem hmem
  have hvisit : Run restless (p.opening (GridWorld.empty 1 1) (.ofInt 4)) (down ++ [m])
      m.after := by
    rcases advance?_eq_some hk with ⟨hover, -⟩ | ⟨-, outcome, c, hrun, -⟩
    · rw [hgoing] at hover
      cases hover
    rw [(started_of_start hstart).tree, hmoves] at hrun
    obtain ⟨hdown, hstep, -⟩ := hrun.split
    exact hdown.trans (.step (outcome?_of_enter hcontrol) hstep (.refl _))
  have hlater : Later GridWorld p [down ++ m :: up] k.program := by
    rw [← hmoves]
    exact .tick hk (.now _)
  have hfirst : ∀ o, m.before.memory.progress.frame 0 ≠ .wait o := by
    rw [hframe]
    exact nofun
  have hat : m.before.At restless 0 (.wait 0) := ⟨hcontrol, harmed, rfl⟩
  rcases wait_counts_down hstart .start hgoing hvisit hat hfirst with
    ⟨hnone, -⟩ | ⟨-, f, -, -, hraise⟩ | ⟨-, time, rest, hv, -, hm, hticks⟩
  · rw [hr] at hnone
    exact absurd (by decide) hnone
  · rw [hraise] at hafter
    cases hafter
  · have htime : time.maxNum .zero = .ofInt 3 := by
      rw [Scope.duration_number (s := m.before.scope restless) rfl hv]
      decide
    rw [htime] at hm
    obtain ⟨-, rs, left, hcounts, hcomes, -⟩ := hticks up [] k.program hlater
    have hrest : rest = some (.ofInt 1) := by
      cases hm.pays with
      | completes hle =>
          rw [hr] at hle
          exact absurd hle (by decide)
      | suspends =>
          rw [hr]
          decide
    rw [hrest] at hm hcounts
    cases hcounts with
    | pending => exact ⟨p, k, hstart, hk, m, hmem, hr, hm, hcomes _ rfl⟩

end Program

end ActorScript
