import ActorScript.Proofs.Core
import ActorScript.Proofs.Frames

/-!
# Whole budgets and whole times

If budgets and the times of all `wait`s are natural numbers, then so is whatever
a run makes of them: what is left of the budget, and the times that the table
remembers.  Budgets may be of any size; times are taken up to `2 ^ 53`, where
every natural number has its datum.

## Main results

* `Whole.step`, `Whole.run` — steps and runs keep to whole numbers.
* `waitsFor_of_ticks` — the table of a program that has been ticked with whole
  budgets remembers whole times.
-/

namespace ActorScript

/-- The time of a `wait` that is written out as a number. -/
theorem Scope.duration_number {W : Type} [World W] {s : Scope W} {e : ExprId}
    {n time : Number} {g g' : Generator} (h : s.tree.expr? e = some (.number n))
    (hv : (s.duration e).Yields g time g') : time = n := by
  have hsize : e < s.tree.exprs.size := (Array.getElem?_eq_some_iff.mp h).1
  obtain ⟨depth, hdepth⟩ := Nat.exists_eq_add_of_lt hsize
  unfold Evaluation.Yields duration evaluate at hv
  rw [hdepth] at hv
  unfold evaluateWithin at hv
  rw [h] at hv
  change ((if n.isFinite = true then pure n else throw (.invalidArgument "wait" n) :
    Evaluation Number).run g).run = _ at hv
  split at hv
  · cases hv
    rfl
  · cases hv

namespace Progress

/-- The times that the table remembers are as `ok` has them. -/
def WaitsFor (ok : Number → Prop) (p : Progress) : Prop :=
  ∀ j owed, (p.node j).frame = .wait owed → ok owed

theorem lasting_waits (ok : Number → Prop) :
    Lasting fun _ f => ∀ owed, f = .wait owed → ok owed where
  fresh _ _ hf := by cases hf
  branch _ _ _ hf := by cases hf
  loop _ _ _ hf := by cases hf
  forEach _ _ _ _ hf := by cases hf

end Progress

namespace Machine.Config

open Progress

variable {W : Type} {t : Tree} {c c' : Config W}

section World

variable [World W]

/-- A time that is worked out here is an integer of magnitude at most `2 ^ 53`. -/
def Timed (t : Tree) (c : Config W) : Prop :=
  ∀ id duration time g, c.Unready t id duration → c.memory.budget.hasTime = true →
    ((c.scope t).duration duration).Yields c.memory.generator time g →
    ∃ n : Nat, n ≤ 2 ^ 53 ∧ (time = .ofInt n ∨ time = -.ofInt n)

/-- A script that writes out its times works out nothing else. -/
theorem timed_of_numbers (h : ∀ id duration, t.stmt? id = some (.wait duration) →
    ∃ n : Nat, n ≤ 2 ^ 53 ∧ t.expr? duration = some (.number (.ofInt n))) :
      c.Timed t := by
  intro id duration time g hunready _ hv
  obtain ⟨n, hn, hexpr⟩ := h id duration hunready.at_.stmt
  exact ⟨n, hn, .inl (Scope.duration_number (s := c.scope t) hexpr hv)⟩

omit [World W] in
/-- What is left of the budget, and the times that are owed, are whole numbers. -/
structure Whole (c : Config W) : Prop where
  budget : c.memory.budget.remaining.IsWhole
  waits : c.memory.progress.WaitsFor Number.IsCount

theorem Whole.owes {id : StmtId} {owed : Number} {g : Generator} (hc : c.Whole)
    (ht : c.Timed t) (h : c.Owes t id owed g) : owed.IsCount := by
  cases h with
  | first h hb hv =>
      obtain ⟨n, hn, rfl | rfl⟩ := ht _ _ _ _ h hb hv
      · rw [(Number.ofInt_amount hn).1.maxNum_zero]
        exact ⟨n, hn, rfl⟩
      · rw [Number.maxNum_zero_of_not_pos (Number.not_pos_neg (Number.ofInt_amount hn).1)]
        exact Number.isCount_zero
  | again _ hf => exact hc.waits id owed ((frame_eq _ _).symm.trans hf)

/-- **Every step keeps to whole numbers.** -/
theorem Whole.step {e : Option Event} (hc : c.Whole) (ht : c.Timed t)
    (h : Step t c e c') :
    c'.Whole := by
  constructor
  · cases h with
    | quiet h =>
        rw [h.keeps.1]
        exact hc.budget
    | deed hb h =>
        obtain ⟨-, -, -, -, hbudget⟩ := h.mirror rfl
        rw [hbudget]
        exact Budget.payStep_isWhole hb hc.budget
    | faulted | refused | waitRefused | waitFaulted => exact hc.budget
    | waited h | waiting h => exact (Budget.spend_isWhole (hc.owes ht h) hc.budget).2
  · refine h.frames (lasting_waits _) hc.waits (fun _ _ _ _ hf => by cases hf) ?_
    intro id owed g h left hf
    cases hf
    exact (Budget.spend_isWhole (hc.owes ht h) hc.budget).1

theorem Whole.run {ms : List (Transition W)} (hc : c.Whole) (h : Run t c ms c')
    (ht : ∀ m ∈ ms, m.before.Timed t) : c'.Whole ∧ ∀ m ∈ ms, m.before.Whole :=
  h.keeps hc fun m hm hwhole hstep => hwhole.step (ht m hm) hstep

end World

end Machine.Config

namespace Program

open Machine Progress

variable {W : Type} [World W] {p q : Program} {w : W} {budget : Number}

/-- The budget is a natural number. -/
def IsNatural (budget : Number) : Prop :=
  ∃ n : Nat, budget = .ofInt n ∧ budget.isFinite = true

/-- The times of all `wait`s that a tick comes to are integers of magnitude at most
`2 ^ 53`. -/
def TimedTick (limit : Nat) (p : Program) (w : W) (budget : Number) : Prop :=
  ∀ m ∈ p.moves limit w budget, m.before.Timed p.tree

omit [World W] in
theorem isNatural_ofInt {n : Nat} (hn : n ≤ 2 ^ 53) : IsNatural (.ofInt n) :=
  ⟨n, rfl, (Number.ofInt_amount hn).1.isFinite⟩

omit [World W] in
theorem whole_opening (hb : IsNatural budget)
    (hw : p.memory.progress.WaitsFor Number.IsCount) : (p.opening w budget).Whole := by
  obtain ⟨n, rfl, hf⟩ := hb
  refine ⟨?_, hw⟩
  show (if Number.zero < .ofInt n then Number.ofInt n else .zero).IsWhole
  split
  · exact Number.isWhole_ofInt hf
  · exact Number.isCount_zero.isWhole

/-- The times that are owed in the course of a tick are natural numbers up to `2 ^ 53`. -/
theorem isCount_of_owes {limit : Nat} {c' : Config W} (hb : IsNatural budget)
    (ht : TimedTick limit p w budget) (hw : p.memory.progress.WaitsFor Number.IsCount)
    (hrun : Run p.tree (p.opening w budget) (p.moves limit w budget) c') :
    ∀ m ∈ p.moves limit w budget, ∀ id owed g, m.before.Owes p.tree id owed g →
      owed.IsCount := by
  intro m hm id owed g howes
  exact (((whole_opening hb hw).run hrun ht).2 m hm).owes (ht m hm) howes

/-- A tick with a whole budget leaves whole times in the table. -/
theorem waitsFor_tick {limit : Nat} {k : Tick W} (hb : IsNatural budget)
    (ht : TimedTick limit p w budget) (hw : p.memory.progress.WaitsFor Number.IsCount)
    (hk : p.advance? limit w budget = some k) :
    k.program.memory.progress.WaitsFor Number.IsCount := by
  rcases advance?_eq_some hk with ⟨-, -, rfl⟩ | ⟨-, outcome, c', hrun, -, rfl⟩
  · exact hw
  · show (p.settle outcome c'.memory).memory.progress.WaitsFor Number.IsCount
    rw [settle_progress]
    exact ((whole_opening hb hw).run hrun ht).1.waits

theorem waitsFor_of_ticks {t : Tree} {es : List Event} (hp : Started t p)
    (h : Ticks
      (fun limit q (w : W) budget => IsNatural budget ∧ TimedTick limit q w budget)
      p es q) :
    q.memory.progress.WaitsFor Number.IsCount := by
  induction h with
  | start => exact hp.frames (lasting_waits _)
  | tick _ hok hk ih => exact waitsFor_tick hok.1 hok.2 ih hk

end Program

end ActorScript
