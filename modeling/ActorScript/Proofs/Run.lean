import ActorScript.Program
import ActorScript.Proofs.Transition

/-!
# Runs and ticks

`Machine.runWithin?` takes steps until a run is over.  Here a run is the list of
the moves that it made, so that whatever is said about a single step can be
carried over to all of them by induction.

## Main results

* `run_of_runWithin?`, `Run.runWithin?` — a run that comes to an end is a chain of steps,
  and a chain of steps to an end is a run.
* `Run.keeps` — what every step keeps, a run keeps.
* `Run.comparable`, `Run.end_unique` — a run can go on in one way only.
* `advance?_eq_some` — a tick is no change at all, or a run from the root whose
  outcome the program settles.
-/

namespace ActorScript

namespace Machine

variable {W : Type}

/-- A step that was taken. -/
structure Transition (W : Type) where
  before : Config W
  event : Option Event
  after : Config W

/-- What was done in the course of some steps. -/
def events (ms : List (Transition W)) : List Event := ms.flatMap fun m => m.event.toList

theorem events_cons (m : Transition W) (ms : List (Transition W)) :
    events (m :: ms) = m.event.toList ++ events ms := rfl

theorem events_append (ms ms' : List (Transition W)) :
    events (ms ++ ms') = events ms ++ events ms' :=
  List.flatMap_append

theorem events_eq_nil {ms : List (Transition W)} (h : ∀ m ∈ ms, m.event = none) :
    events ms = [] := by
  unfold events
  rw [List.flatMap_eq_nil_iff]
  intro m hm
  rw [h m hm]
  rfl

variable [World W]

/-- `Run t c ms c'`: the steps `ms` lead from `c` to `c'`. -/
inductive Run (t : Tree) : Config W → List (Transition W) → Config W → Prop
  | refl (c : Config W) : Run t c [] c
  | step {c c₁ c' : Config W} {e : Option Event} {ms : List (Transition W)}
      (ho : c.outcome? = none) (h : Config.Step t c e c₁) (hr : Run t c₁ ms c') :
      Run t c (⟨c, e, c₁⟩ :: ms) c'

/-- The steps of a run that is over after at most `limit` of them. -/
def movesWithin (t : Tree) : Nat → Config W → List (Transition W)
  | 0, _ => []
  | limit + 1, c =>
      match c.outcome?, c.step? t with
      | none, some (next, event) => ⟨c, event, next⟩ :: movesWithin t limit next
      | _, _ => []

/-- **A run that comes to an end is a chain of steps.** -/
theorem run_of_runWithin? {t : Tree} {ending : Ending W} :
    ∀ {limit : Nat} {done : List Event} {c : Config W},
      runWithin? t limit done c = some ending →
      ∃ c', Run t c (movesWithin t limit c) c' ∧ c'.outcome? = some ending.outcome ∧
        ending.memory = c'.memory ∧ ending.world = c'.world ∧
        ending.events = done.reverse ++ events (movesWithin t limit c) := by
  intro limit
  induction limit with
  | zero =>
      intro done c h
      cases h
  | succ limit ih =>
      intro done c h
      unfold runWithin? at h
      unfold movesWithin
      cases ho : c.outcome? with
      | some outcome =>
          rw [ho] at h
          cases h
          exact ⟨c, .refl c, ho, rfl, rfl, by simp [events]⟩
      | none =>
          simp only [ho, Option.bind_eq_bind, Option.bind_eq_some_iff] at h
          obtain ⟨⟨next, event⟩, hstep, h⟩ := h
          obtain ⟨c', hrun, houtcome, hmemory, hworld, hevents⟩ := ih h
          rw [hstep]
          refine ⟨c', .step ho (Config.step?_eq_some_iff.mp hstep) hrun,
            houtcome, hmemory, hworld, ?_⟩
          rw [hevents]
          cases event <;> simp [events]

/-- And a chain of steps to an end is a run, if the limit allows for it. -/
theorem Run.runWithin? {t : Tree} {c c' : Config W} {ms : List (Transition W)}
    {outcome : Except Fault Flow} (h : Run t c ms c') (ho : c'.outcome? = some outcome) :
    ∀ (limit : Nat) (done : List Event), ms.length < limit →
      Machine.runWithin? t limit done c =
        some ⟨outcome, c'.memory, c'.world, done.reverse ++ events ms⟩ := by
  induction h with
  | refl c =>
      intro limit done hlimit
      obtain ⟨n, rfl⟩ : ∃ n, limit = n + 1 := ⟨limit - 1, by simp at hlimit; omega⟩
      simp [Machine.runWithin?, ho, events]
  | @step c c₁ c' e ms hnone hstep _ ih =>
      intro limit done hlimit
      rw [List.length_cons] at hlimit
      obtain ⟨n, rfl⟩ : ∃ n, limit = n + 1 := ⟨limit - 1, by omega⟩
      have hnext := ih ho n (e.toList ++ done) (by omega)
      simp only [Machine.runWithin?, hnone, Config.step?_eq_some_iff.mpr hstep,
        Option.bind_eq_bind, Option.bind_some, hnext]
      cases e <;> simp [events]

section

variable {t : Tree} {c c' c₁ d : Config W} {ms ms' : List (Transition W)}

theorem Run.trans (h : Run t c ms c₁) (h' : Run t c₁ ms' c') :
    Run t c (ms ++ ms') c' := by
  induction h with
  | refl => exact h'
  | step ho hstep _ ih => exact .step ho hstep (ih h')

/-- A run can be cut at each of its moves. -/
theorem Run.split {done todo : List (Transition W)} {m : Transition W}
    (h : Run t c (done ++ m :: todo) c') :
    Run t c done m.before ∧ Config.Step t m.before m.event m.after ∧
    Run t m.after todo c' := by
  induction done generalizing c with
  | nil =>
      cases h with
      | step _ hstep hrun => exact ⟨.refl _, hstep, hrun⟩
  | cons m₁ done ih =>
      cases h with
      | step ho hstep hrun =>
          obtain ⟨hdone, hlast, htodo⟩ := ih hrun
          exact ⟨.step ho hstep hdone, hlast, htodo⟩

/-- Each move of a run is a step from a point that the run has come to. -/
theorem Run.of_mem {m : Transition W} (h : Run t c ms c') (hm : m ∈ ms) :
    (∃ done, Run t c done m.before) ∧ Config.Step t m.before m.event m.after := by
  obtain ⟨done, todo, rfl⟩ := List.append_of_mem hm
  obtain ⟨hdone, hstep, -⟩ := h.split
  exact ⟨⟨done, hdone⟩, hstep⟩

/-- **What steps keep, a run keeps**, and all of its moves start from there. -/
theorem Run.keeps {P : Config W → Prop} (h : Run t c ms c') (hc : P c)
    (hP : ∀ m ∈ ms, P m.before → Config.Step t m.before m.event m.after → P m.after) :
    P c' ∧ ∀ m ∈ ms, P m.before := by
  induction h with
  | refl => exact ⟨hc, List.forall_mem_nil _⟩
  | step _ hstep _ ih =>
      rw [List.forall_mem_cons] at hP
      obtain ⟨hc', hms⟩ := ih (hP.1 hc hstep) hP.2
      exact ⟨hc', List.forall_mem_cons.mpr ⟨hc, hms⟩⟩

/-- Of two runs from the same point one is the beginning of the other. -/
theorem Run.comparable (h : Run t c ms c') (h' : Run t c ms' d) :
    ms <+: ms' ∨ ms' <+: ms := by
  induction h generalizing ms' with
  | refl => exact .inl (List.nil_prefix)
  | step _ hstep _ ih =>
      cases h' with
      | refl => exact .inr (List.nil_prefix)
      | step _ hstep' hrun' =>
          obtain ⟨rfl, rfl⟩ := hstep.unique hstep'
          rcases ih hrun' with h | h
          · exact .inl ((List.prefix_cons_inj _).mpr h)
          · exact .inr ((List.prefix_cons_inj _).mpr h)

/-- A run that comes to its end goes on from every point that it passes. -/
theorem Run.rest {o : Except Fault Flow} (h : Run t c ms c₁) (h' : Run t c ms' c')
    (ho : c'.outcome? = some o) : ∃ ms'', Run t c₁ ms'' c' := by
  induction h generalizing ms' with
  | refl => exact ⟨ms', h'⟩
  | step hnone hstep _ ih =>
      cases h' with
      | refl =>
          rw [hnone] at ho
          cases ho
      | step _ hstep' hrun' =>
          obtain ⟨rfl, rfl⟩ := hstep.unique hstep'
          exact ih hrun'

/-- There is one end to a run. -/
theorem Run.end_unique {o o' : Except Fault Flow} (h : Run t c ms c')
    (ho : c'.outcome? = some o) (h' : Run t c ms' d) (ho' : d.outcome? = some o') :
    ms = ms' ∧ c' = d := by
  induction h generalizing ms' with
  | refl =>
      cases h' with
      | refl => exact ⟨rfl, rfl⟩
      | step hnone =>
          rw [hnone] at ho
          cases ho
  | step hnone hstep _ ih =>
      cases h' with
      | refl =>
          rw [hnone] at ho'
          cases ho'
      | step _ hstep' hrun' =>
          obtain ⟨rfl, rfl⟩ := hstep.unique hstep'
          obtain ⟨rfl, rfl⟩ := ih ho hrun'
          exact ⟨rfl, rfl⟩

end

end Machine

namespace Program

open Machine

variable {W : Type}

/-- The configuration that a tick starts from. -/
def opening (p : Program) (w : W) (budget : Number) : Config W :=
  { control := .enter p.root
    memory := (p.memory.replenish budget).countTick
    world := w }

variable [World W]

/-- The steps that a tick takes. -/
def moves (limit : Nat) (p : Program) (w : W) (budget : Number) : List (Transition W) :=
  if p.isHalted || p.isFinished then [] else movesWithin p.tree limit (p.opening w budget)

/-- **A tick** does nothing to a program that is done or halted; otherwise it is a run
from the root. -/
theorem advance?_eq_some {limit : Nat} {p : Program} {w : W}
    {budget : Number} {k : Tick W} (h : p.advance? limit w budget = some k) :
    ((p.isHalted || p.isFinished) = true ∧ p.moves limit w budget = [] ∧ k = ⟨p, w, []⟩) ∨
    ((p.isHalted || p.isFinished) = false ∧
      ∃ outcome c', Run p.tree (p.opening w budget) (p.moves limit w budget) c' ∧
        c'.outcome? = some outcome ∧
        k = ⟨p.settle outcome c'.memory, c'.world, events (p.moves limit w budget)⟩) := by
  unfold advance? at h
  unfold moves
  cases hover : p.isHalted || p.isFinished with
  | true =>
      rw [hover] at h
      cases h
      exact .inl ⟨rfl, rfl, rfl⟩
  | false =>
      simp only [hover, Bool.false_eq_true, ↓reduceIte, Option.pure_def,
        Option.bind_eq_bind, Option.bind_eq_some_iff, Option.some.injEq] at h
      obtain ⟨ending, hrun, rfl⟩ := h
      obtain ⟨c', hrun, houtcome, hmemory, hworld, hevents⟩ := run_of_runWithin? hrun
      refine .inr ⟨rfl, ending.outcome, c', hrun, houtcome, ?_⟩
      rw [hmemory, hworld, hevents]
      rfl

theorem events_moves {limit : Nat} {p : Program} {w : W} {budget : Number} {k : Tick W}
    (h : p.advance? limit w budget = some k) :
    events (p.moves limit w budget) = k.events := by
  rcases advance?_eq_some h with ⟨-, hmoves, rfl⟩ | ⟨-, _, _, -, -, rfl⟩
  · rw [hmoves]
    rfl
  · rfl

/-- A run from the root to its end makes a tick, if the limit allows for it. -/
theorem advance?_of_run {limit : Nat} {p : Program} {w : W} {budget : Number}
    {c' : Config W} {ms : List (Transition W)} {outcome : Except Fault Flow}
    (hover : (p.isHalted || p.isFinished) = false)
    (h : Run p.tree (p.opening w budget) ms c') (ho : c'.outcome? = some outcome)
    (hlimit : ms.length < limit) :
    p.advance? limit w budget =
      some ⟨p.settle outcome c'.memory, c'.world, events ms⟩ := by
  have hrun : runWithin? p.tree limit [] (p.opening w budget) = _ :=
    h.runWithin? ho limit [] hlimit
  unfold advance? execute?
  rw [hover]
  exact congrArg (Option.bind · _) hrun

end Program

end ActorScript
