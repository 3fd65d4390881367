import ActorScript.Proofs.Transition

/-!
# What evaluations come to

An evaluation has one of three outcomes: a value and the generator that is left, a
fault, or none at all, if it looks at a position that points nowhere.  `Meets` rules
out the last and bounds the other two.  It is proved by one rule for each way in
which evaluations are put together, and once for every function that evaluates.

The type of an expression can be read off the tree.  Only a variable has to be looked
up among the declarations; every other expression has the type that its head gives.

## Main results

* `Scope.evaluateWithin_meets` — in a tree whose operands stand before their
  expressions every evaluation has an outcome, its value is of the type of the
  expression, its fault is a transient one, and it asks the generator for numbers
  below positive finite bounds only.
* `Scope.candidates_meets` — the same for the candidates of a loop, which faults for
  good only if its variable is not declared with their type.
-/

namespace ActorScript

/-! ## Types that can be read off the tree -/

/-- The type of the results of an operator. -/
def BinaryOp.type : BinaryOp → ValueType
  | add | sub | mul | div => .number
  | eq | ne | lt | le | gt | ge | and | or => .boolean

def UnaryOp.type : UnaryOp → ValueType
  | not => .boolean
  | neg | sqrt => .number

/-- The type of the answers to a question. -/
def Property.type : Property → ValueType
  | x | y | width | height | hitPoints => .number
  | isAlive | isMoving | isJumping | isDucking | isOnGround => .boolean
  | facing => .direction

namespace Tree

/-- The type with which a variable is declared. -/
def declared? (t : Tree) (name : Name) : Option ValueType := t.globals.toList.lookup name

/-- The type of an expression; there is none for a variable without declaration. -/
def typeOf? (t : Tree) : Expr → Option ValueType
  | .var name => t.declared? name
  | .number _ | .random _ | .tileCoord .. => some .number
  | .boolean _ | .isKind .. | .tileIs .. => some .boolean
  | .direction _ => some .direction
  | .null | .self | .nearest .. => some .object
  | .tileAt .. => some .tile
  | .binary op _ _ => some op.type
  | .unary op _ => some op.type
  | .property property _ => some property.type

/-- The type of the expression at a position. -/
def exprType? (t : Tree) (id : ExprId) : Option ValueType := t.expr? id >>= t.typeOf?

end Tree

/-- `g.Advances g'`: draws below positive finite bounds lead from `g` to `g'`. -/
inductive Generator.Advances : Generator → Generator → Prop
  | refl (g : Generator) : Advances g g
  | draw {g g' : Generator} {bound : Number} (h : IsBound bound)
      (hd : Advances (g.below bound h).2 g') : Advances g g'

theorem Generator.Advances.trans {g g₁ g' : Generator} (h : g.Advances g₁)
    (h' : g₁.Advances g') : g.Advances g' := by
  induction h with
  | refl => exact h'
  | draw hb _ ih => exact .draw hb (ih h')

/-! ## Rules for evaluations -/

namespace Evaluation

variable {α β : Type} {P : α → Prop} {Q : β → Prop} {F : Fault → Prop}

/-- The evaluation has an outcome: a value as `P` has it, after draws below proper
bounds, or a fault as `F` has it. -/
def Meets (ev : Evaluation α) (P : α → Prop) (F : Fault → Prop) : Prop :=
  ∀ g, (∃ a g', ev.Yields g a g' ∧ g.Advances g' ∧ P a) ∨ ∃ f, ev.Fails g f ∧ F f

section Outcomes

variable {ev : Evaluation α} {g g' : Generator}

/-- An evaluation has one outcome. -/
theorem Meets.of_yields {a : α} (h : ev.Meets P F) (hy : ev.Yields g a g') :
    g.Advances g' ∧ P a := by
  rcases h g with ⟨b, g₁, hy', hd, hb⟩ | ⟨f, hf, -⟩
  · cases hy.symm.trans hy'
    exact ⟨hd, hb⟩
  · cases hy.symm.trans hf

theorem Meets.of_fails {f : Fault} (h : ev.Meets P F) (hf : ev.Fails g f) : F f := by
  rcases h g with ⟨b, g₁, hy, -⟩ | ⟨f', hf', hF⟩
  · cases hf.symm.trans hy
  · cases hf.symm.trans hf'
    exact hF

theorem Meets.exists_outcome (h : ev.Meets P F) (g : Generator) :
    (∃ a g', ev.Yields g a g') ∨ ∃ f, ev.Fails g f := by
  rcases h g with ⟨a, g', hy, -⟩ | ⟨f, hf, -⟩
  · exact .inl ⟨a, g', hy⟩
  · exact .inr ⟨f, hf⟩

theorem Meets.mono {P' : α → Prop} {F' : Fault → Prop} (h : ev.Meets P F)
    (hP : ∀ a, P a → P' a) (hF : ∀ f, F f → F' f) : ev.Meets P' F' := by
  intro g
  rcases h g with ⟨a, g', hy, hd, ha⟩ | ⟨f, hf, hFf⟩
  · exact .inl ⟨a, g', hy, hd, hP a ha⟩
  · exact .inr ⟨f, hf, hF f hFf⟩

end Outcomes

theorem meets_pure {a : α} (h : P a) : (pure a : Evaluation α).Meets P F :=
  fun g => .inl ⟨a, g, rfl, .refl g, h⟩

theorem meets_throw {f : Fault} (h : F f) : (throw f : Evaluation α).Meets P F :=
  fun _ => .inr ⟨f, rfl, h⟩

theorem meets_modifyGet {f : Generator → α × Generator}
    (h : ∀ g, Generator.Advances g (f g).2) :
    (modifyGet f : Evaluation α).Meets (fun _ => True) F :=
  fun g => .inl ⟨(f g).1, (f g).2, rfl, h g, trivial⟩

/-- A result that needs no generator. -/
theorem meets_lift {x : Except Fault α} (hok : ∀ a, x = .ok a → P a)
    (herror : ∀ f, x = .error f → F f) : (liftM x : Evaluation α).Meets P F := by
  intro g
  cases x with
  | ok a => exact .inl ⟨a, g, rfl, .refl g, hok a rfl⟩
  | error f => exact .inr ⟨f, rfl, herror f rfl⟩

/-- A position that points somewhere is read without further ado. -/
theorem liftM_some_bind (a : α) (k : α → Evaluation β) :
    (liftM (some a) : Evaluation α) >>= k = k a := rfl

theorem Meets.bind {ev : Evaluation α} {k : α → Evaluation β} (h : ev.Meets P F)
    (hk : ∀ a, P a → (k a).Meets Q F) : (ev >>= k).Meets Q F := by
  intro g
  -- the run of a bind goes by the outcome of its first part
  rcases h g with ⟨a, g₁, hy, hd, ha⟩ | ⟨f, hf, hF⟩
  · have hrun : ((ev >>= k).run g).run = ((k a).run g₁).run := by
      rw [StateT.run_bind, ExceptT.run_bind, hy]
      rfl
    rcases hk a ha g₁ with ⟨b, g', hy', hd', hb⟩ | ⟨f, hf, hF⟩
    · exact .inl ⟨b, g', hrun.trans hy', hd.trans hd', hb⟩
    · exact .inr ⟨f, hrun.trans hf, hF⟩
  · refine .inr ⟨f, ?_, hF⟩
    show ((ev >>= k).run g).run = _
    rw [StateT.run_bind, ExceptT.run_bind, hf]
    rfl

/-- Evaluations one after the other. -/
theorem meets_mapM {k : α → Evaluation β} {as : List α} (h : ∀ a ∈ as, (k a).Meets Q F) :
    (as.mapM k).Meets (fun bs => ∀ b ∈ bs, Q b) F := by
  induction as with
  | nil =>
      rw [List.mapM_nil]
      exact meets_pure (by simp)
  | cons a as ih =>
      rw [List.mapM_cons]
      refine (h a (by simp)).bind fun b hb => ?_
      refine (ih fun a' ha' => h a' (by simp [ha'])).bind fun bs hbs => ?_
      refine meets_pure fun b' hb' => ?_
      rcases List.mem_cons.mp hb' with rfl | hb'
      · exact hb
      · exact hbs b' hb'

end Evaluation

/-! ## The parts of an evaluation -/

/-- The fault leaves the script to go on. -/
abbrev Fault.IsTransient (f : Fault) : Prop := f.isFatal = false

open Evaluation

/-- A value of another type than expected is a transient fault. -/
theorem Value.expect_meets {α : Type} {P : α → Prop} {v : Value}
    {part? : Value → Option α} {type : ValueType} {context : String}
    (h : ∀ a, part? v = some a → P a) :
    (liftM (v.expect part? type context) : Evaluation α).Meets P Fault.IsTransient := by
  unfold Value.expect
  cases hpart : part? v with
  | some a => exact meets_pure (h a hpart)
  | none => exact meets_throw rfl

/-- An operator on numbers that has a result has one of its type, or divides by zero. -/
private theorem BinaryOp.onNumbers_outcome {op : BinaryOp} {a b : Number}
    {result : Except Fault Value} (h : op.onNumbers a b = some result) :
    (∃ v, result = .ok v ∧ v.type = op.type) ∨ result = .error .divisionByZero := by
  cases op with
  | div =>
      cases h
      by_cases hb : b.equal .zero = true
      · exact .inr (if_pos hb)
      · exact .inl ⟨_, if_neg hb, rfl⟩
  | add | sub | mul | lt | le | gt | ge =>
      cases h
      exact .inl ⟨_, rfl, rfl⟩
  | eq | ne | and | or => cases h

theorem BinaryOp.apply_meets (op : BinaryOp) (l r : Value) :
    (liftM (op.apply l r) : Evaluation Value).Meets (fun v => v.type = op.type)
      Fault.IsTransient := by
  unfold apply
  dsimp only
  split
  · split
    · exact meets_pure rfl
    · exact meets_throw rfl
  · split
    · exact meets_pure rfl
    · exact meets_throw rfl
  · rename_i a b _ _
    cases h : op.onNumbers a b with
    | none => exact meets_throw rfl
    | some result =>
        rcases onNumbers_outcome h with ⟨v, rfl, hv⟩ | rfl
        · exact meets_pure hv
        · exact meets_throw rfl
  · rename_i a b _ _
    cases op with
    | and | or => exact meets_pure rfl
    | add | sub | mul | div | eq | ne | lt | le | gt | ge => exact meets_throw rfl
  · exact meets_throw rfl

theorem UnaryOp.apply_meets (op : UnaryOp) (v : Value) :
    (liftM (op.apply v) : Evaluation Value).Meets (fun v => v.type = op.type)
      Fault.IsTransient := by
  unfold apply
  split
  · exact meets_pure rfl
  · exact meets_pure rfl
  · split
    · exact meets_throw rfl
    · exact meets_pure rfl
  · exact meets_throw rfl

theorem tileCoordinate_meets (n : Number) :
    (liftM (tileCoordinate n) : Evaluation Int).Meets (fun _ => True)
      Fault.IsTransient := by
  unfold tileCoordinate
  split
  · split
    · exact meets_pure trivial
    · exact meets_throw rfl
  · exact meets_throw rfl

/-- The generator is asked for a number only if the bound is positive and finite. -/
theorem randomBelow_meets (bound : Number) :
    (randomBelow bound).Meets (fun _ => True) Fault.IsTransient := by
  unfold randomBelow
  split
  · rename_i h
    exact meets_modifyGet fun g => .draw h (.refl _)
  · exact meets_throw rfl

namespace Scope

variable {W : Type} [World W] {s : Scope W}

omit [World W] in
/-- The variables that an expression sees hold values of the types of their
declarations. -/
def Typed (s : Scope W) : Prop :=
  ∀ name v, s.lookup name = .ok v → s.tree.declared? name = some v.type

omit [World W] in
theorem lookup_meets (s : Scope W) (name : Name) :
    (liftM (s.lookup name) : Evaluation Value).Meets
      (fun v => s.Typed → s.tree.declared? name = some v.type) Fault.IsTransient := by
  refine meets_lift (fun v hv hs => hs name v hv) fun f hf => ?_
  unfold lookup at hf
  split at hf
  · cases hf
  · split at hf
    · cases hf
    · cases hf
      rfl

theorem ask_meets (s : Scope W) (property : Property) (object : Option ActorId) :
    (liftM (s.ask property object) : Evaluation Value).Meets
      (fun v => v.type = property.type) Fault.IsTransient := by
  cases object with
  | none => exact meets_throw rfl
  | some id =>
      simp only [ask]
      split
      · cases property <;> exact meets_pure rfl
      · split
        · rename_i hproperty
          subst hproperty
          exact meets_pure rfl
        · exact meets_throw rfl

theorem isKind_meets (s : Scope W) (kind : ActorKind) (object : Option ActorId) :
    (liftM (s.isKind kind object) : Evaluation Value).Meets
      (fun v => v.type = .boolean) Fault.IsTransient := by
  cases object with
  | none => exact meets_throw rfl
  | some id =>
      simp only [isKind]
      split
      · exact meets_pure rfl
      · exact meets_throw rfl

theorem nearest_meets (s : Scope W) (direction : Direction) (kind : Option ActorKind) :
    (liftM (s.nearest direction kind) : Evaluation Value).Meets
      (fun v => v.type = .object) Fault.IsTransient := by
  unfold nearest
  split
  · exact meets_pure rfl
  · exact meets_throw rfl

/-! ## Expressions -/

/-- **Every evaluation has an outcome.**  The depth is that of the nesting: an operand
stands before its expression, so that the position bounds it. -/
theorem evaluateWithin_meets (s : Scope W) (hground : s.tree.Grounded) :
    ∀ {depth : Nat} {id : ExprId}, id < depth → id < s.tree.exprs.size →
      (s.evaluateWithin depth id).Meets
        (fun v => s.Typed → s.tree.exprType? id = some v.type) Fault.IsTransient := by
  intro depth
  induction depth with
  | zero =>
      intro id hid
      cases hid
  | succ depth ih =>
      intro id hid hsize
      obtain ⟨e, he⟩ : ∃ e, s.tree.expr? id = some e :=
        ⟨_, Array.getElem?_eq_getElem hsize⟩
      have htype : s.tree.exprType? id = s.tree.typeOf? e := by
        unfold Tree.exprType?
        rw [he]
        rfl
      have operand : ∀ {o}, o ∈ e.operands →
          (s.evaluateWithin depth o).Meets (fun _ => True) Fault.IsTransient := by
        intro o ho
        have hlt : o < id := hground id e he o ho
        have hdepth : o < depth := Nat.lt_of_lt_of_le hlt (Nat.le_of_lt_succ hid)
        exact (ih hdepth (Nat.lt_trans hlt hsize)).mono (fun _ _ => trivial)
          fun _ hf => hf
      rw [htype]
      unfold evaluateWithin
      rw [he, liftM_some_bind]
      cases e with
      | number | boolean | direction | null | self => exact meets_pure fun _ => rfl
      | var name => exact s.lookup_meets name
      | binary op left right =>
          refine (operand (by simp [Expr.operands])).bind fun l _ => ?_
          refine (operand (by simp [Expr.operands])).bind fun r _ => ?_
          exact (op.apply_meets l r).mono (fun v hv _ => congrArg some hv.symm)
            fun _ hf => hf
      | unary op o =>
          refine (operand (by simp [Expr.operands])).bind fun v _ => ?_
          exact (op.apply_meets v).mono (fun v hv _ => congrArg some hv.symm)
            fun _ hf => hf
      | random max =>
          refine (operand (by simp [Expr.operands])).bind fun v _ => ?_
          refine (Value.expect_meets fun _ _ => trivial).bind fun bound _ => ?_
          exact (randomBelow_meets bound).bind fun n _ => meets_pure fun _ => rfl
      | property property object =>
          refine (operand (by simp [Expr.operands])).bind fun v _ => ?_
          refine (Value.expect_meets fun _ _ => trivial).bind fun object _ => ?_
          exact (s.ask_meets property object).mono (fun v hv _ => congrArg some hv.symm)
            fun _ hf => hf
      | isKind object kind =>
          refine (operand (by simp [Expr.operands])).bind fun v _ => ?_
          refine (Value.expect_meets fun _ _ => trivial).bind fun object _ => ?_
          exact (s.isKind_meets kind object).mono (fun v hv _ => congrArg some hv.symm)
            fun _ hf => hf
      | tileAt x y =>
          refine (operand (by simp [Expr.operands])).bind fun v _ => ?_
          refine (Value.expect_meets fun _ _ => trivial).bind fun px _ => ?_
          refine (operand (by simp [Expr.operands])).bind fun w _ => ?_
          refine (Value.expect_meets fun _ _ => trivial).bind fun py _ => ?_
          refine (tileCoordinate_meets px).bind fun column _ => ?_
          exact (tileCoordinate_meets py).bind fun row _ => meets_pure fun _ => rfl
      | tileCoord tile axis =>
          refine (operand (by simp [Expr.operands])).bind fun v _ => ?_
          exact (Value.expect_meets fun _ _ => trivial).bind fun t _ =>
            meets_pure fun _ => rfl
      | tileIs tile tileClass =>
          refine (operand (by simp [Expr.operands])).bind fun v _ => ?_
          exact (Value.expect_meets fun _ _ => trivial).bind fun t _ =>
            meets_pure fun _ => rfl
      | nearest direction kind =>
          refine (operand (by simp [Expr.operands])).bind fun v _ => ?_
          refine (Value.expect_meets fun _ _ => trivial).bind fun direction _ => ?_
          exact (s.nearest_meets direction kind).mono
            (fun v hv _ => congrArg some hv.symm)
            fun _ hf => hf

theorem evaluate_meets (s : Scope W) (hground : s.tree.Grounded) {id : ExprId}
    (hid : id < s.tree.exprs.size) :
    (s.evaluate id).Meets (fun v => s.Typed → s.tree.exprType? id = some v.type)
      Fault.IsTransient :=
  s.evaluateWithin_meets hground hid hid

/-- The same where the type of the value does not matter. -/
private theorem evaluate_has_outcome (s : Scope W)
    (hground : s.tree.Grounded) {id : ExprId} (hid : id < s.tree.exprs.size) :
    (s.evaluate id).Meets (fun _ => True) Fault.IsTransient :=
  (s.evaluate_meets hground hid).mono (fun _ _ => trivial) fun _ hf => hf

theorem condition_meets (s : Scope W) (hground : s.tree.Grounded) {id : ExprId}
    (hid : id < s.tree.exprs.size) (context : String) :
    (s.condition context id).Meets (fun _ => True) Fault.IsTransient :=
  (s.evaluate_has_outcome hground hid).bind fun _ _ =>
    Value.expect_meets fun _ _ => trivial

theorem duration_meets (s : Scope W) (hground : s.tree.Grounded) {id : ExprId}
    (hid : id < s.tree.exprs.size) :
    (s.duration id).Meets (fun time => time.isFinite = true) Fault.IsTransient := by
  refine (s.evaluate_has_outcome hground hid).bind fun v _ => ?_
  refine (Value.expect_meets fun _ _ => trivial).bind fun time _ => ?_
  split
  · rename_i hfinite
    exact meets_pure hfinite
  · exact meets_throw rfl

theorem command_meets (s : Scope W) (hground : s.tree.Grounded) {action : Action ExprId}
    (haction : ∀ id ∈ action.direction?, id < s.tree.exprs.size) :
    (s.command action).Meets (fun _ => True) Fault.IsTransient := by
  cases action with
  | startMove id =>
      refine Meets.bind (P := fun _ => True) ?_ fun d _ => meets_pure trivial
      refine (s.evaluate_has_outcome hground (haction id rfl)).bind fun v _ => ?_
      exact Value.expect_meets fun d _ => trivial
  | stopMove | startJump | stopJump | startDuck | stopDuck => exact meets_pure trivial

/-! ## Candidates -/

theorem keep_meets (s : Scope W) (hground : s.tree.Grounded) {filter : ExprId}
    (hfilter : filter < s.tree.exprs.size) (var : Name) (candidates : List Value) :
    (s.keep var filter candidates).Meets (fun kept => kept ⊆ candidates)
      Fault.IsTransient := by
  refine Meets.bind (meets_mapM (Q := fun _ => True) fun c _ => ?_)
    fun verdicts _ => meets_pure fun c hc => ?_
  · exact (s.withCandidate var c).condition_meets hground hfilter "for each filter"
  · obtain ⟨⟨c', verdict⟩, hmem, rfl⟩ := List.mem_map.mp hc
    exact (List.of_mem_zip (List.mem_filter.mp hmem).1).1

theorem arrange_meets (s : Scope W) (hground : s.tree.Grounded) {key : SortKey}
    (hkey : key.expr < s.tree.exprs.size) (var : Name) (candidates : List Value) :
    (s.arrange var key candidates).Meets (fun sorted => sorted ⊆ candidates)
      Fault.IsTransient := by
  refine Meets.bind (meets_mapM (Q := fun _ => True) fun c _ => ?_)
    fun keys _ => meets_pure fun c hc => ?_
  · refine ((s.withCandidate var c).evaluate_has_outcome hground hkey).bind fun v _ => ?_
    exact Value.expect_meets fun n _ => trivial
  · obtain ⟨⟨k, c'⟩, hmem, rfl⟩ := List.mem_map.mp hc
    exact (List.of_mem_zip (List.mem_mergeSort.mp hmem)).2

theorem type_of_mem_enumerate {w : W} {selector : Selector} {v : Value}
    (h : v ∈ selector.enumerate w) : v.type = selector.candidateType := by
  cases selector with
  | actors kind =>
      obtain ⟨id, -, rfl⟩ := List.mem_map.mp h
      rfl
  | tiles =>
      obtain ⟨tile, -, rfl⟩ := List.mem_map.mp h
      rfl

/-- **The candidates of a loop** are of the type that its variable has to be declared
with; that the variable is not is the only fault for good. -/
theorem candidates_meets (s : Scope W) (hground : s.tree.Grounded) (var : Name)
    (selector : Selector) {filter : Option ExprId} {sort : Option SortKey}
    (hfilter : ∀ id ∈ filter, id < s.tree.exprs.size)
    (hsort : ∀ key ∈ sort, key.expr < s.tree.exprs.size) :
    (s.candidates var selector filter sort).Meets
      (fun candidates => ∀ v ∈ candidates, v.type = selector.candidateType)
      (fun f => f.IsTransient ∨ s.globals.type? var ≠ some selector.candidateType) := by
  unfold candidates
  dsimp only
  split
  · rename_i hdeclared
    exact meets_throw (.inr hdeclared)
  · refine Meets.mono (P := fun candidates => candidates ⊆ selector.enumerate s.world)
      (F := Fault.IsTransient) ?_ (fun _ hsub v hv => type_of_mem_enumerate (hsub hv))
      fun _ hf => .inl hf
    cases sort with
    | none =>
        cases filter with
        | none => exact meets_pure (List.Subset.refl _)
        | some filter =>
            refine (s.keep_meets hground (hfilter filter rfl) var _).bind
              fun kept hsub => ?_
            exact meets_pure hsub
    | some key =>
        have hsorted := s.arrange_meets hground (hsort key rfl) var
        cases filter with
        | none => exact hsorted _
        | some filter =>
            refine (s.keep_meets hground (hfilter filter rfl) var _).bind
              fun kept hsub => ?_
            exact (hsorted kept).mono (fun _ h => List.Subset.trans h hsub) fun _ hf => hf

section Declared

variable {s : Scope W} {var : Name} {selector : Selector} {filter : Option ExprId}
  {sort : Option SortKey} {candidates : List Value} {g g' : Generator}

/-- A loop looks at the declaration of its variable first. -/
theorem candidates_of_ne (h : s.globals.type? var ≠ some selector.candidateType) :
    (s.candidates var selector filter sort).Fails g
      (.loopVariable (s.tree.names.lookup var) selector.candidateType
        (s.globals.type? var)) := by
  unfold Evaluation.Fails Scope.candidates
  rw [if_pos h]
  rfl

/-- A loop that lists anything has its variable declared as it has to be. -/
theorem declared_of_yields
    (h : (s.candidates var selector filter sort).Yields g candidates g') :
    s.globals.type? var = some selector.candidateType := by
  apply Decidable.byContradiction
  intro hne
  cases h.symm.trans (candidates_of_ne hne)

end Declared

end Scope

end ActorScript
