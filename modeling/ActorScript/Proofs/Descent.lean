import ActorScript.Proofs.Core
import ActorScript.Proofs.Soundness

/-!
# The way back down

A run that stops forgets its stack.  The next one starts at the root and finds
its way down by the table: it takes quiet moves only, and comes to the very point
at which the last one stopped, with the same stack and the same loops at work.

## Main results

* `Path.ride` — quiet moves lead along every path.
* `Sound.ride_of_costs`, `Sound.ride_of_at` — and so to the points at which a run can
  stop.
-/

namespace ActorScript

namespace Machine

open Config

variable {W : Type} {t : Tree} {c c' c₁ d : Config W}

/-- Quiet moves lead from one configuration to another. -/
inductive Ride (t : Tree) : Config W → Config W → Prop
  | refl (c : Config W) : Ride t c c
  | step {c c₁ c' : Config W} (ho : c.outcome? = none) (h : Quiet t c c₁)
      (hr : Ride t c₁ c') : Ride t c c'

theorem Ride.trans (h : Ride t c c₁) (h' : Ride t c₁ c') : Ride t c c' := by
  induction h with
  | refl => exact h'
  | step ho hq _ ih => exact .step ho hq (ih h')

/-- Rides do not depend on the books. -/
theorem Ride.mirror (h : Ride t c c') (hd : d.core = c.core) :
    ∃ d', Ride t d d' ∧ d'.core = c'.core ∧ d'.memory.budget = d.memory.budget := by
  induction h generalizing d with
  | refl => exact ⟨d, .refl d, hd, rfl⟩
  | step ho hq _ ih =>
      obtain ⟨d₁, hq', hd₁, hb₁⟩ := hq.mirror hd
      obtain ⟨d', hr, hd', hb'⟩ := ih hd₁
      exact ⟨d', .step ((outcome?_of_core hd).trans ho) hq' hr, hd', hb'.trans hb₁⟩

/-- Quiet moves make a run. -/
theorem Ride.exists_quiet [World W] (h : Ride t c c₁) :
    ∃ pre, Run t c pre c₁ ∧ ∀ m ∈ pre, m.event = none ∧ Quiet t m.before m.after := by
  induction h with
  | refl c => exact ⟨[], .refl c, by simp⟩
  | @step c c₂ c₁ hnone hq _ ih =>
      obtain ⟨pre, hrun, hpre⟩ := ih
      refine ⟨⟨c, none, c₂⟩ :: pre, .step hnone (.quiet hq) hrun, ?_⟩
      intro m hm
      rcases List.mem_cons.mp hm with rfl | hm
      · exact ⟨rfl, hq⟩
      · exact hpre m hm

/-- A run takes the quiet moves that there are. -/
theorem Ride.run [World W] {ms : List (Transition W)} {outcome : Except Fault Flow}
    (h : Ride t c c₁) (hrun : Run t c ms c') (ho : c'.outcome? = some outcome) :
    ∃ pre ms', ms = pre ++ ms' ∧ Run t c₁ ms' c' ∧
      ∀ m ∈ pre, m.event = none ∧
        m.after.memory.generator = m.before.memory.generator := by
  obtain ⟨pre, hride, hpre⟩ := h.exists_quiet
  obtain ⟨ms', hrest⟩ := hride.rest hrun ho
  obtain ⟨hms, -⟩ := hrun.end_unique ho (hride.trans hrest) ho
  exact ⟨pre, ms', hms, hrest, fun m hm => ⟨(hpre m hm).1, (hpre m hm).2.keeps.2.2⟩⟩

namespace Config

/-- The configuration at another place. -/
def placed (c : Config W) (control : Control) (stack : List Task) (loops : List StmtId) :
    Config W :=
  { c with control, stack, memory := { c.memory with loops } }

/-- The configuration from which the next run starts. -/
def restart (c : Config W) (root : StmtId) : Config W := c.placed (.enter root) [] []

theorem placed_self (c : Config W) {control : Control} (h : c.control = control) :
    c.placed control c.stack c.memory.loops = c := by
  rw [← h]
  rfl

theorem outcome?_of_enter {id : StmtId} (h : c.control = .enter id) :
    c.outcome? = none := by
  unfold outcome?
  rw [h]
  cases c.stack <;> rfl

theorem outcome?_of_iterate {id : StmtId} (h : c.control = .iterate id) :
    c.outcome? = none := by
  unfold outcome?
  rw [h]
  cases c.stack <;> rfl

theorem restart_core {root : StmtId} (h : d.core = c.core) :
    (d.restart root).core = (c.restart root).core := by
  obtain ⟨b, k, rfl, hk⟩ := exists_booked h
  exact booked_core (c := c.restart root) hk

/-- Where no loops are at work, a restart forgets none. -/
theorem core_memory_of_loops {root : StmtId} (h : c.memory.loops = []) :
    c.memory.core = (c.restart root).core.memory := by
  show _ = Memory.core { c.memory with loops := [] }
  rw [← h]

end Config

end Machine

namespace Progress

open Machine Machine.Config

variable {W : Type} {t : Tree} {root id child : StmtId} {task : Task} {k : List Task}
  {ls : List StmtId} {c : Config W}

/-- A run passes the statements of a sequence that are done. -/
private theorem ride_past {past rest : List StmtId}
    (h : ∀ d ∈ past, c.memory.progress.Idle t d) :
    Ride t (c.placed (.leave .completed) (.sequence id (past ++ rest) :: k) ls)
      (c.placed (.leave .completed) (.sequence id rest :: k) ls) := by
  induction past with
  | nil => exact .refl _
  | cons d past ih =>
      have hidle : c.memory.progress.isArmed d = false := by
        rw [isArmed_eq, (h d (by simp)).node_eq]
        rfl
      refine .step rfl (.next rfl rfl) (.step rfl (.pass rfl hidle) ?_)
      exact ih fun e he => h e (by simp [he])

/-- Quiet moves lead from a statement in progress to the child that it is at work on. -/
theorem Link.ride (h : Link t c.memory.progress id task child) :
    Ride t (c.placed (.enter id) k ls)
      (c.placed (.enter child) (task :: k) (task.loop?.toList ++ ls)) := by
  have hat : ∀ {s}, t.stmt? id = some s → (c.placed (.enter id) k ls).At t id s := by
    intro s hs
    refine ⟨rfl, ?_, hs⟩
    show c.memory.progress.isArmed id = true
    rw [isArmed_eq, h.armed]
  have hframe : ∀ {n : Node}, c.memory.progress.node id = n →
      c.memory.progress.frame id = n.frame := by
    intro n hn
    rw [frame_eq, hn]
  cases h with
  | sequence hs hcs hn hpast _ =>
      refine .step (outcome?_of_enter rfl) (.sequence (hat hs) hcs)
        ((ride_past hpast).trans ?_)
      exact .step rfl (.next rfl rfl) (.refl _)
  | thenBranch hs hn | elseBranch hs hn =>
      exact .step (outcome?_of_enter rfl) (.branch (hat hs) (hframe hn)) (.refl _)
  | whileRound hs hn =>
      refine .step (outcome?_of_enter rfl) (.while (hat hs)) ?_
      refine .step (outcome?_of_iterate rfl) ?_ (.refl _)
      exact .whileRound ⟨rfl, hs⟩ (hframe hn)
  | forEachRound hs hn hi =>
      refine .step (outcome?_of_enter rfl) (.forEach (hat hs) (hframe hn)) ?_
      refine .step (outcome?_of_iterate rfl) ?_ (.refl _)
      exact .forEachRound ⟨rfl, hs⟩ (hframe hn) (List.getElem?_eq_getElem hi)

/-- **Quiet moves lead along every path.** -/
theorem Path.ride (h : Path t c.memory.progress root id k ls) :
    Ride t (c.restart root) (c.placed (.enter id) k ls) := by
  induction h with
  | root => exact .refl _
  | link _ hl ih => exact ih.trans hl.ride

end Progress

namespace Machine.Config

open Progress

variable {W : Type} {t : Tree} {root : StmtId} {c : Config W}

theorem Sound.ride [World W] {c' : Config W} (ht : t.Proper root) (hc : Sound t root c)
    (h : Ride t c c') : Sound t root c' := by
  induction h with
  | refl => exact hc
  | step _ hq _ ih => exact ih (hc.step ht (.quiet hq))

/-- A run that stopped at a statement comes back to it. -/
theorem Sound.ride_of_at {id : StmtId} {s : Stmt} (hc : Sound t root c)
    (hat : c.At t id s) :
    Ride t (c.restart root) c := by
  have hride := (hc.of_at hat).1.ride
  rwa [c.placed_self hat.control] at hride

/-- A loop that has work to do is entered at its head. -/
private theorem ride_of_head {id : StmtId} {s : Stmt}
    (hpath : Path t c.memory.progress root id c.stack c.memory.loops)
    (hat : c.AtHead t id s)
    (hq : Quiet t (c.placed (.enter id) c.stack c.memory.loops)
      (c.placed (.iterate id) c.stack c.memory.loops)) :
    Ride t (c.restart root) c := by
  have hride := hpath.ride.trans (.step (outcome?_of_enter rfl) hq (.refl _))
  rwa [c.placed_self hat.control] at hride

/-- A run that stopped where a step has to be paid for comes back there. -/
theorem Sound.ride_of_costs (ht : t.Proper root) (hc : Sound t root c) (h : Costs t c) :
    Ride t (c.restart root) c := by
  cases h with
  | assign hat | print hat | act hat | leaveLoop hat | choose hat | list hat =>
      exact hc.ride_of_at hat
  | check hat hf =>
      obtain ⟨hpath, hh⟩ := hc.of_atHead hat
      obtain ⟨harmed, -⟩ := hh.while_check ht hpath.under hat.stmt
        fun h => hf ((frame_eq _ _).trans h)
      rw [← isArmed_eq] at harmed
      exact ride_of_head hpath hat (.while ⟨rfl, harmed, hat.stmt⟩)
  | @visit id _ _ _ _ _ _ _ _ hat hf _ =>
      obtain ⟨hpath, hh⟩ := hc.of_atHead hat
      obtain ⟨hn, -⟩ := hh.forEach_next hat.stmt ((frame_eq _ _).symm.trans hf)
      have harmed : c.memory.progress.isArmed id = true := by rw [isArmed_eq, hn]
      exact ride_of_head hpath hat (.forEach ⟨rfl, harmed, hat.stmt⟩ hf)

end Machine.Config

end ActorScript
