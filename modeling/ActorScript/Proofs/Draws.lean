import ActorScript.Proofs.Outcomes

/-!
# Who asks for random numbers

The generator is handed through every evaluation, but only a `random` expression
draws from it.  An evaluation that comes across none is `Steady`: its outcome is
the same for every generator, and it gives the generator back as it was.

## Main results

* `Scope.evaluateWithin_steady` — an expression with no `random` beneath it is steady.
* `Scope.candidates_steady` — so are the candidates of a loop with such a filter and
  such a key.
-/

namespace ActorScript

/-! ## Rules for evaluations -/

namespace Evaluation

variable {α β : Type}

/-- The outcome does not depend on the generator, which stays as it is. -/
def Steady (ev : Evaluation α) : Prop :=
  ∃ outcome : Option (Except Fault α),
    ∀ g, (ev.run g).run = outcome.map (Except.map fun a => (a, g))

theorem steady_pure (a : α) : (pure a : Evaluation α).Steady :=
  ⟨some (.ok a), fun _ => rfl⟩

theorem steady_throw (f : Fault) : (throw f : Evaluation α).Steady :=
  ⟨some (.error f), fun _ => rfl⟩

/-- What is no evaluation by itself draws nothing. -/
theorem steady_lift (x : Except Fault α) : (liftM x : Evaluation α).Steady := by
  cases x with
  | ok a => exact steady_pure a
  | error f => exact steady_throw f

theorem steady_none : (liftM (none : Option α) : Evaluation α).Steady :=
  ⟨none, fun _ => rfl⟩

theorem Steady.bind {ev : Evaluation α} {k : α → Evaluation β} (h : ev.Steady)
    (hk : ∀ a, (k a).Steady) : (ev >>= k).Steady := by
  obtain ⟨outcome, hrun⟩ := h
  match outcome, hrun with
  | none, hrun =>
      refine ⟨none, fun g => ?_⟩
      rw [StateT.run_bind, ExceptT.run_bind, hrun]
      rfl
  | some (.error f), hrun =>
      refine ⟨some (.error f), fun g => ?_⟩
      rw [StateT.run_bind, ExceptT.run_bind, hrun]
      rfl
  | some (.ok a), hrun =>
      obtain ⟨outcome', hrun'⟩ := hk a
      refine ⟨outcome', fun g => ?_⟩
      rw [StateT.run_bind, ExceptT.run_bind, hrun]
      exact hrun' g

theorem steady_mapM {k : α → Evaluation β} (h : ∀ a, (k a).Steady) (as : List α) :
    (as.mapM k).Steady := by
  induction as with
  | nil =>
      rw [List.mapM_nil]
      exact steady_pure []
  | cons a as ih =>
      rw [List.mapM_cons]
      exact (h a).bind fun b => ih.bind fun bs => steady_pure (b :: bs)

/-- A steady evaluation leaves the generator alone. -/
theorem Steady.of_yields {ev : Evaluation α} {g g' : Generator} {a : α} (h : ev.Steady)
    (hy : ev.Yields g a g') : g' = g ∧ ∀ g, ev.Yields g a g := by
  obtain ⟨outcome, hrun⟩ := h
  unfold Yields at hy ⊢
  rw [hrun g] at hy
  match outcome, hy with
  | some (.ok _), rfl => exact ⟨rfl, hrun⟩

theorem Steady.of_fails {ev : Evaluation α} {g : Generator} {f : Fault} (h : ev.Steady)
    (hf : ev.Fails g f) : ∀ g, ev.Fails g f := by
  obtain ⟨outcome, hrun⟩ := h
  unfold Fails at hf ⊢
  rw [hrun g] at hf
  match outcome, hf with
  | some (.error _), rfl => exact hrun

end Evaluation

/-! ## Trees without random numbers -/

namespace Tree

/-- `t.Beneath e j`: the expression `j` is `e` itself or stands beneath it as an
operand. -/
inductive Beneath (t : Tree) : ExprId → ExprId → Prop
  | refl (e : ExprId) : Beneath t e e
  | operand {e o j : ExprId} {x : Expr} (hx : t.expr? e = some x) (ho : o ∈ x.operands)
      (h : Beneath t o j) : Beneath t e j

/-- There is no `random` in an expression. -/
def DrawlessExpr (t : Tree) (e : ExprId) : Prop :=
  ∀ j max, t.Beneath e j → t.expr? j ≠ some (.random max)

/-- There is no `random` in any expression that a statement under the root uses. -/
def Drawless (t : Tree) (root : StmtId) : Prop :=
  ∀ id s, t.Under root id → t.stmt? id = some s → ∀ e ∈ s.operands, t.DrawlessExpr e

theorem DrawlessExpr.operand {t : Tree} {e o : ExprId} {x : Expr} (h : t.DrawlessExpr e)
    (hx : t.expr? e = some x) (ho : o ∈ x.operands) : t.DrawlessExpr o :=
  fun j max hj => h j max (.operand hx ho hj)

end Tree

open Evaluation

namespace Scope

variable {W : Type} [World W]

/-- **Only `random` draws.**  The induction is on the depth of the nesting. -/
theorem evaluateWithin_steady (s : Scope W) {depth : Nat} {e : ExprId}
    (h : s.tree.DrawlessExpr e) : (s.evaluateWithin depth e).Steady := by
  induction depth generalizing e with
  | zero => exact steady_none
  | succ depth ih =>
      unfold evaluateWithin
      cases hx : s.tree.expr? e with
      | none => exact ⟨none, fun _ => rfl⟩
      | some x =>
          rw [liftM_some_bind]
          have operand : ∀ {o}, o ∈ x.operands → (s.evaluateWithin depth o).Steady :=
            fun ho => ih (h.operand hx ho)
          cases x with
          | number | boolean | direction | null | self => exact steady_pure _
          | var name => exact steady_lift _
          | binary op left right =>
              refine (operand (by simp [Expr.operands])).bind fun l => ?_
              exact (operand (by simp [Expr.operands])).bind fun r => steady_lift _
          | unary op o =>
              exact (operand (by simp [Expr.operands])).bind fun v => steady_lift _
          | random max => exact absurd hx (h e max (.refl e))
          | property property object =>
              refine (operand (by simp [Expr.operands])).bind fun v => ?_
              exact (steady_lift _).bind fun object => steady_lift _
          | isKind object kind =>
              refine (operand (by simp [Expr.operands])).bind fun v => ?_
              exact (steady_lift _).bind fun object => steady_lift _
          | tileAt x y =>
              refine (operand (by simp [Expr.operands])).bind fun v => ?_
              refine (steady_lift _).bind fun px => ?_
              refine (operand (by simp [Expr.operands])).bind fun w => ?_
              refine (steady_lift _).bind fun py => (steady_lift _).bind fun column => ?_
              exact (steady_lift _).bind fun row => steady_pure _
          | tileCoord tile axis =>
              refine (operand (by simp [Expr.operands])).bind fun v => ?_
              exact (steady_lift _).bind fun t => steady_pure _
          | tileIs tile tileClass =>
              refine (operand (by simp [Expr.operands])).bind fun v => ?_
              exact (steady_lift _).bind fun t => steady_pure _
          | nearest direction kind =>
              refine (operand (by simp [Expr.operands])).bind fun v => ?_
              exact (steady_lift _).bind fun direction => steady_lift _

theorem evaluate_steady (s : Scope W) {e : ExprId} (h : s.tree.DrawlessExpr e) :
    (s.evaluate e).Steady := s.evaluateWithin_steady h

theorem condition_steady (s : Scope W) {e : ExprId} (h : s.tree.DrawlessExpr e)
    (context : String) : (s.condition context e).Steady :=
  (s.evaluate_steady h).bind fun _ => steady_lift _

theorem duration_steady (s : Scope W) {e : ExprId} (h : s.tree.DrawlessExpr e) :
    (s.duration e).Steady := by
  refine (s.evaluate_steady h).bind fun v => (steady_lift _).bind fun time => ?_
  split
  · exact steady_pure time
  · exact steady_throw _

theorem command_steady (s : Scope W) {action : Action ExprId}
    (h : ∀ e ∈ action.direction?, s.tree.DrawlessExpr e) : (s.command action).Steady := by
  cases action with
  | startMove e =>
      refine Steady.bind ?_ fun d => steady_pure _
      exact (s.evaluate_steady (h e rfl)).bind fun v => steady_lift _
  | stopMove | startJump | stopJump | startDuck | stopDuck => exact steady_pure _

theorem keep_steady (s : Scope W) {filter : ExprId}
    (h : s.tree.DrawlessExpr filter) (var : Name) (candidates : List Value) :
    (s.keep var filter candidates).Steady := by
  refine Steady.bind (steady_mapM (fun c => ?_) candidates) fun verdicts => steady_pure _
  exact (s.withCandidate var c).condition_steady h "for each filter"

theorem arrange_steady (s : Scope W) {key : SortKey} (h : s.tree.DrawlessExpr key.expr)
    (var : Name) (candidates : List Value) : (s.arrange var key candidates).Steady := by
  refine Steady.bind (steady_mapM (fun c => ?_) candidates) fun keys => steady_pure _
  exact ((s.withCandidate var c).evaluate_steady h).bind fun v => steady_lift _

/-- The candidates of a loop are worked out without a draw. -/
theorem candidates_steady (s : Scope W) (var : Name) (selector : Selector)
    {filter : Option ExprId} {sort : Option SortKey}
    (hfilter : ∀ e ∈ filter, s.tree.DrawlessExpr e)
    (hsort : ∀ key ∈ sort, s.tree.DrawlessExpr key.expr) :
    (s.candidates var selector filter sort).Steady := by
  unfold candidates
  dsimp only
  split
  · exact steady_throw _
  · cases filter with
    | none =>
        cases sort with
        | none => exact (steady_pure _).bind steady_pure
        | some key => exact (steady_pure _).bind (s.arrange_steady (hsort key rfl) var)
    | some filter =>
        have hkept := s.keep_steady (hfilter filter rfl) var (selector.enumerate s.world)
        cases sort with
        | none => exact hkept.bind steady_pure
        | some key => exact hkept.bind (s.arrange_steady (hsort key rfl) var)

end Scope

/-! ## Statements -/

namespace Tree.Drawless

variable {W : Type} [World W] {t : Tree} {root id : StmtId} {s : Stmt} {e : ExprId}
  {sc : Scope W}

theorem evaluate_steady (h : t.Drawless root) (hid : t.Under root id)
    (hs : t.stmt? id = some s) (he : e ∈ s.operands) (hsc : sc.tree = t) :
    (sc.evaluate e).Steady := by
  subst hsc
  exact sc.evaluate_steady (h id s hid hs e he)

theorem condition_steady (h : t.Drawless root) (hid : t.Under root id)
    (hs : t.stmt? id = some s) (he : e ∈ s.operands) (hsc : sc.tree = t)
    (context : String) :
    (sc.condition context e).Steady := by
  subst hsc
  exact sc.condition_steady (h id s hid hs e he) context

theorem duration_steady (h : t.Drawless root) (hid : t.Under root id)
    (hs : t.stmt? id = some s) (he : e ∈ s.operands) (hsc : sc.tree = t) :
    (sc.duration e).Steady := by
  subst hsc
  exact sc.duration_steady (h id s hid hs e he)

theorem command_steady {action : Action ExprId} (h : t.Drawless root)
    (hid : t.Under root id) (hs : t.stmt? id = some (.act action)) (hsc : sc.tree = t) :
    (sc.command action).Steady := by
  subst hsc
  exact sc.command_steady fun e he => h id _ hid hs e (Option.mem_toList.mpr he)

theorem candidates_steady {var : Name} {sel : Selector} {filter : Option ExprId}
    {sort : Option SortKey} {body : StmtId} (h : t.Drawless root) (hid : t.Under root id)
    (hs : t.stmt? id = some (.forEach var sel filter sort body)) (hsc : sc.tree = t) :
    (sc.candidates var sel filter sort).Steady := by
  subst hsc
  refine sc.candidates_steady var sel (fun e he => ?_) fun key hkey => ?_
  · exact h id _ hid hs e (List.mem_append_left _ (Option.mem_toList.mpr he))
  · refine h id _ hid hs key.expr (List.mem_append_right _ (Option.mem_toList.mpr ?_))
    exact Option.mem_map_of_mem SortKey.expr hkey

end Tree.Drawless

end ActorScript
