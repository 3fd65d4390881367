import ActorScript.Proofs.Core
import ActorScript.Proofs.Outcomes
import ActorScript.Proofs.Ticks

/-!
# Nothing is out of bounds

`Config.step?` has no answer where a position points outside the tables, where an
expression is nested deeper than the table of expressions is long, or where a subtree
is deeper than the table of statements.  In a valid tree none of this comes up: every
configuration that a tick passes through has a next one.

## Main results

* `Fit.exists_step` — a configuration in a run over a valid tree has a next one.
* `never_stuck` — a valid tree can be started, and whatever the ticks and the worlds,
  every step finds what it looks for.
-/

namespace ActorScript

/-! ## Subtrees -/

namespace Tree

variable {t : Tree} {root id : StmtId}

theorem Proper.lt_size (ht : t.Proper root) (hid : t.Under root id) :
    id < t.stmts.size := by
  obtain ⟨s, cs, hf⟩ := ht.fork id hid
  exact (Array.getElem?_eq_some_iff.mp hf.stmt).1

private theorem exists_mapM {f : StmtId → Option (List StmtId)} {ids : List StmtId}
    (h : ∀ c ∈ ids, ∃ l, f c = some l) : ∃ below, ids.mapM f = some below := by
  induction ids with
  | nil => exact ⟨[], rfl⟩
  | cons c ids ih =>
      obtain ⟨l, hl⟩ := h c (by simp)
      obtain ⟨below, hbelow⟩ := ih fun d hd => h d (by simp [hd])
      exact ⟨l :: below, by simp [List.mapM_cons, hl, hbelow]⟩

private theorem Proper.exists_subtreeWithin? (ht : t.Proper root) :
    ∀ {depth : Nat} {id : StmtId}, id < depth → t.Under root id →
      ∃ ids, t.subtreeWithin? depth id = some ids := by
  intro depth
  induction depth with
  | zero =>
      intro id hlt
      cases hlt
  | succ depth ih =>
      intro id hlt hid
      obtain ⟨s, cs, hf⟩ := ht.fork id hid
      obtain ⟨below, hbelow⟩ : ∃ below, cs.mapM (t.subtreeWithin? depth) = some below :=
        exists_mapM fun c hc =>
          ih (Nat.lt_of_lt_of_le (hf.below c hc) (Nat.le_of_lt_succ hlt))
          (hid.trans (.of_child hf.children? hc))
      exact ⟨id :: below.flatten, by simp [subtreeWithin?, hf.children?, hbelow]⟩

theorem Proper.exists_subtree? (ht : t.Proper root) (hid : t.Under root id) :
    ∃ ids, t.subtree? id = some ids :=
  ht.exists_subtreeWithin? (ht.lt_size hid) hid

private theorem Proper.exists_spineWithin? (ht : t.Proper root) :
    ∀ {depth : Nat} {id : StmtId}, id < depth → t.Under root id →
      ∃ ids, t.spineWithin? depth id = some ids := by
  intro depth
  induction depth with
  | zero =>
      intro id hlt
      cases hlt
  | succ depth ih =>
      intro id hlt hid
      obtain ⟨s, cs, hf⟩ := ht.fork id hid
      unfold spineWithin?
      rw [hf.stmt]
      cases s with
      | sequence body =>
          have hcs : t.slice? body = some cs := hf.children
          obtain ⟨below, hbelow⟩ : ∃ below, cs.mapM (t.spineWithin? depth) = some below :=
            exists_mapM fun c hc =>
              ih (Nat.lt_of_lt_of_le (hf.below c hc) (Nat.le_of_lt_succ hlt))
                (hid.trans (.of_child hf.children? hc))
          exact ⟨id :: below.flatten, by simp [hcs, hbelow]⟩
      | assign | conditional | «while» | forEach | wait | leaveLoop | print
      | skip | act =>
          exact ⟨[id], rfl⟩

theorem Proper.exists_spine? (ht : t.Proper root) (hid : t.Under root id) :
    ∃ ids, t.spine? id = some ids :=
  ht.exists_spineWithin? (ht.lt_size hid) hid

end Tree

/-! ## Writes to the table -/

namespace Progress

variable {t : Tree} {root id : StmtId} {p q : Progress} {n : Node} {f : Frame}

theorem size_setNode? (h : p.setNode? id n = some q) : q.nodes.size = p.nodes.size := by
  unfold setNode? at h
  split at h
  · cases h
    exact Array.size_setIfInBounds
  · cases h

theorem size_setFrame? (h : p.setFrame? id f = some q) : q.nodes.size = p.nodes.size := by
  unfold setFrame? at h
  simp only [Option.bind_eq_bind, Option.bind_eq_some_iff] at h
  obtain ⟨n, -, h⟩ := h
  exact size_setNode? h

theorem size_finish? (h : p.finish? id = some q) : q.nodes.size = p.nodes.size :=
  size_setNode? h

theorem size_mark? (h : p.mark? id = some q) : q.nodes.size = p.nodes.size := by
  unfold mark? at h
  simp only [Option.bind_eq_bind, Option.bind_eq_some_iff] at h
  obtain ⟨n, -, h⟩ := h
  exact size_setNode? h

/-- Writes one after the other leave the table as long as it is. -/
theorem size_foldlM {write : Progress → StmtId → Option Progress}
    (hwrite : ∀ {p id q}, write p id = some q → q.nodes.size = p.nodes.size) :
    ∀ {ids : List StmtId} {p q : Progress}, ids.foldlM write p = some q →
      q.nodes.size = p.nodes.size := by
  intro ids
  induction ids with
  | nil =>
      intro p q h
      cases h
      rfl
  | cons id ids ih =>
      intro p q h
      simp only [List.foldlM_cons, Option.bind_eq_bind, Option.bind_eq_some_iff] at h
      obtain ⟨p₁, hp₁, h⟩ := h
      exact (ih h).trans (hwrite hp₁)

theorem size_disarm? (h : p.disarm? t id = some q) : q.nodes.size = p.nodes.size := by
  unfold disarm? at h
  simp only [Option.bind_eq_bind, Option.bind_eq_some_iff] at h
  obtain ⟨ids, -, h⟩ := h
  exact size_foldlM size_finish? h

theorem size_arm? (h : p.arm? t id = some q) : q.nodes.size = p.nodes.size := by
  unfold arm? at h
  simp only [Option.bind_eq_bind, Option.bind_eq_some_iff] at h
  obtain ⟨ids, -, p₁, hp₁, h⟩ := h
  exact (size_foldlM size_mark? h).trans (size_disarm? hp₁)

theorem setNode?_of_lt (h : id < p.nodes.size) (n : Node) :
    ∃ q, p.setNode? id n = some q :=
  ⟨_, if_pos h⟩

theorem finish?_of_lt (h : id < p.nodes.size) : ∃ q, p.finish? id = some q :=
  setNode?_of_lt h idleNode

theorem setFrame?_of_lt (h : id < p.nodes.size) (f : Frame) :
    ∃ q, p.setFrame? id f = some q := by
  obtain ⟨q, hq⟩ := setNode?_of_lt h { p.nodes[id] with frame := f }
  exact ⟨q, by simp [setFrame?, h, hq]⟩

theorem mark?_of_lt (h : id < p.nodes.size) : ∃ q, p.mark? id = some q := by
  obtain ⟨q, hq⟩ := setNode?_of_lt h { p.nodes[id] with armed := true }
  exact ⟨q, by simp [mark?, h, hq]⟩

theorem exists_foldlM {write : Progress → StmtId → Option Progress}
    (hsize : ∀ {p id q}, write p id = some q → q.nodes.size = p.nodes.size)
    (hwrite : ∀ {p : Progress} {id}, id < p.nodes.size → ∃ q, write p id = some q) :
    ∀ {ids : List StmtId} {p : Progress}, (∀ j ∈ ids, j < p.nodes.size) →
      ∃ q, ids.foldlM write p = some q := by
  intro ids
  induction ids with
  | nil =>
      intro p _
      exact ⟨p, rfl⟩
  | cons id ids ih =>
      intro p h
      obtain ⟨p₁, hp₁⟩ := hwrite (h id (by simp))
      obtain ⟨q, hq⟩ := ih (p := p₁) fun j hj => by
        rw [hsize hp₁]
        exact h j (by simp [hj])
      exact ⟨q, by simp [List.foldlM_cons, hp₁, hq]⟩

/-- A subtree of a proper tree can be marked as done. -/
theorem exists_disarm? (ht : t.Proper root) (hid : t.Under root id)
    (hsize : p.nodes.size = t.stmts.size) : ∃ q, p.disarm? t id = some q := by
  obtain ⟨ids, hids⟩ := ht.exists_subtree? hid
  have hlt : ∀ j ∈ ids, j < p.nodes.size := by
    intro j hj
    rw [hsize]
    exact ht.lt_size (hid.trans ((Tree.mem_subtree?_iff hids j).mp hj))
  obtain ⟨q, hq⟩ := exists_foldlM size_finish? finish?_of_lt hlt
  exact ⟨q, by simp [disarm?, hids, hq]⟩

/-- And it can be made ready to run. -/
theorem exists_arm? (ht : t.Proper root) (hid : t.Under root id)
    (hsize : p.nodes.size = t.stmts.size) : ∃ q, p.arm? t id = some q := by
  obtain ⟨p₁, hp₁⟩ := exists_disarm? ht hid hsize
  obtain ⟨ids, hids⟩ := ht.exists_spine? hid
  have hlt : ∀ j ∈ ids, j < p₁.nodes.size := by
    intro j hj
    rw [size_disarm? hp₁, hsize]
    exact ht.lt_size (hid.trans ((Tree.mem_spine?_iff hids j).mp hj).under)
  obtain ⟨q, hq⟩ := exists_foldlM size_mark? mark?_of_lt hlt
  exact ⟨q, by simp [arm?, hids, hp₁, hq]⟩

end Progress

/-! ## What a statement evaluates -/

namespace Tree.Fork

variable {W : Type} [World W] {t : Tree} {id : StmtId} {s : Stmt} {cs : List StmtId}
  {sc : Scope W} {e : ExprId}

theorem evaluate_meets (hfork : t.Fork id s cs) (hground : t.Grounded) (hsc : sc.tree = t)
    (he : e ∈ s.operands) :
    (sc.evaluate e).Meets (fun v => sc.Typed → t.exprType? e = some v.type)
      Fault.IsTransient := by
  subst hsc
  exact sc.evaluate_meets hground (hfork.operands e he)

theorem condition_meets (hfork : t.Fork id s cs) (hground : t.Grounded)
    (hsc : sc.tree = t) (he : e ∈ s.operands) (context : String) :
    (sc.condition context e).Meets (fun _ => True) Fault.IsTransient := by
  subst hsc
  exact sc.condition_meets hground (hfork.operands e he) context

theorem duration_meets (hfork : t.Fork id s cs) (hground : t.Grounded) (hsc : sc.tree = t)
    (he : e ∈ s.operands) :
    (sc.duration e).Meets (fun time => time.isFinite = true) Fault.IsTransient := by
  subst hsc
  exact sc.duration_meets hground (hfork.operands e he)

theorem command_meets {action : Action ExprId} (hfork : t.Fork id (.act action) cs)
    (hground : t.Grounded) (hsc : sc.tree = t) :
    (sc.command action).Meets (fun _ => True) Fault.IsTransient := by
  subst hsc
  exact sc.command_meets hground fun e he => hfork.operands e (Option.mem_toList.mpr he)

theorem candidates_meets {var : Name} {sel : Selector} {filter : Option ExprId}
    {sort : Option SortKey} {body : StmtId}
    (hfork : t.Fork id (.forEach var sel filter sort body) cs) (hground : t.Grounded)
    (hsc : sc.tree = t) :
    (sc.candidates var sel filter sort).Meets
      (fun candidates => ∀ v ∈ candidates, v.type = sel.candidateType)
      (fun f => f.IsTransient ∨ sc.globals.type? var ≠ some sel.candidateType) := by
  subst hsc
  refine sc.candidates_meets hground var sel (fun e he => ?_) fun key hkey => ?_
  · exact hfork.operands e (List.mem_append_left _ (Option.mem_toList.mpr he))
  · refine hfork.operands key.expr (List.mem_append_right _ (Option.mem_toList.mpr ?_))
    exact Option.mem_map_of_mem SortKey.expr hkey

end Tree.Fork

namespace Machine.Config

open Progress

variable {W : Type} {t : Tree} {root : StmtId} {c c' : Config W}

/-- A run comes to statements of the tree only. -/
theorem Sound.fork_of_at {id : StmtId} {s : Stmt} (ht : t.Proper root)
    (hc : Sound t root c) (hat : c.At t id s) : ∃ cs, t.Fork id s cs := by
  obtain ⟨s', cs, hfork⟩ := ht.fork id (hc.of_at hat).1.under
  cases hat.stmt.symm.trans hfork.stmt
  exact ⟨cs, hfork⟩

theorem Sound.fork_of_atHead {id : StmtId} {s : Stmt} (ht : t.Proper root)
    (hc : Sound t root c) (hat : c.AtHead t id s) : ∃ cs, t.Fork id s cs := by
  obtain ⟨s', cs, hfork⟩ := ht.fork id (hc.of_atHead hat).1.under
  cases hat.stmt.symm.trans hfork.stmt
  exact ⟨cs, hfork⟩

/-! ## Steps keep the table as long as it is -/

theorem Quiet.size_eq (h : Quiet t c c') :
    c'.memory.progress.nodes.size = c.memory.progress.nodes.size := by
  cases h with
  | pass | sequence | branch | «while» | forEach | whileRound | forEachRound
  | unlisted | next
  | unwind | passFault | ended => rfl
  | noBranch _ _ hp | skip _ hp | sequenceEnd _ _ hp | branchEnd _ _ hp =>
      exact size_finish? hp
  | exhausted _ _ _ hp | broken _ _ hp => exact size_disarm? hp
  | roundEnd _ _ _ hp => exact size_setFrame? hp

section World

variable [World W]

theorem Deed.size_eq {e : Event} (h : Deed t c e c') :
    c'.memory.progress.nodes.size = c.memory.progress.nodes.size := by
  cases h with
  | assign _ _ _ hp | print _ _ hp | act _ _ hp | leaveLoop _ _ hp =>
      exact size_finish? hp
  | choose _ _ _ _ hp₁ hp | check _ _ _ hp₁ hp | visit _ _ _ _ hp₁ hp =>
      exact (size_setFrame? hp).trans (size_arm? hp₁)
  | chooseNone _ _ _ _ hp₁ hp => exact (size_finish? hp).trans (size_setFrame? hp₁)
  | list _ _ _ hp => exact size_setFrame? hp
  | stop _ _ _ hp => exact size_disarm? hp

theorem Step.size_eq {e : Option Event} (h : Step t c e c') :
    c'.memory.progress.nodes.size = c.memory.progress.nodes.size := by
  cases h with
  | quiet h => exact h.size_eq
  | deed _ h => exact h.size_eq
  | faulted | refused | waitRefused | waitFaulted => rfl
  | waited _ _ hp => exact size_finish? hp
  | waiting _ _ hp => exact size_setFrame? hp

/-! ## Every configuration has a next one -/

/-- What holds of a configuration in a run over a valid tree. -/
structure Fit (t : Tree) (root : StmtId) (c : Config W) : Prop where
  sound : Sound t root c
  size : c.memory.progress.nodes.size = t.stmts.size

theorem Fit.step {e : Option Event} (ht : t.Proper root) (hc : Fit t root c)
    (h : Step t c e c') : Fit t root c' :=
  ⟨hc.sound.step ht h, h.size_eq.trans hc.size⟩

theorem Fit.run {ms : List (Transition W)} (ht : t.Proper root) (hc : Fit t root c)
    (h : Run t c ms c') : Fit t root c' :=
  (h.keeps hc fun _ _ hm hstep => hm.step ht hstep).1

omit [World W] in
theorem Fit.lt_size {id : StmtId} (ht : t.Proper root) (hc : Fit t root c)
    (hid : t.Under root id) : id < c.memory.progress.nodes.size := by
  rw [hc.size]
  exact ht.lt_size hid

omit [World W] in
/-- A child can be made ready to run, and then noted in the frame of its parent. -/
private theorem Fit.exists_armed {id b : StmtId} {s : Stmt} {cs : List StmtId}
    (ht : t.Proper root) (hc : Fit t root c) (hid : t.Under root id)
    (hfork : t.Fork id s cs) (hb : b ∈ cs) (f : Frame) :
    ∃ p₁ p, c.memory.progress.arm? t b = some p₁ ∧ p₁.setFrame? id f = some p := by
  obtain ⟨p₁, hp₁⟩ := exists_arm? ht (hid.trans (.of_child hfork.children? hb)) hc.size
  obtain ⟨p, hp⟩ := setFrame?_of_lt (size_arm? hp₁ ▸ hc.lt_size ht hid) f
  exact ⟨p₁, p, hp₁, hp⟩

/-- Where a step has to be paid for, there is a next configuration whatever the budget is
and whatever the evaluation comes to. -/
private theorem Costs.exists_step {α : Type} {P : α → Prop} {F : Fault → Prop}
    {ev : Evaluation α} (h : Costs t c) (hev : ev.Meets P F)
    (hfails : ∀ f, ev.Fails c.memory.generator f → ∃ g, Faulty t c f g)
    (hyields : ∀ a g, ev.Yields c.memory.generator a g →
      (∃ e c', Deed t c e c') ∨ ∃ f g, Faulty t c f g) :
    ∃ e c', Step t c e c' := by
  cases hb : c.memory.budget.canStep with
  | false => exact ⟨_, _, .refused hb h⟩
  | true =>
      rcases hev.exists_outcome c.memory.generator with ⟨a, g, hv⟩ | ⟨f, hv⟩
      · rcases hyields a g hv with ⟨e, c', hdeed⟩ | ⟨f, g', hfaulty⟩
        · exact ⟨_, _, .deed hb hdeed⟩
        · exact ⟨_, _, .faulted hb hfaulty⟩
      · obtain ⟨g, hfaulty⟩ := hfails f hv
        exact ⟨_, _, .faulted hb hfaulty⟩

section At

variable {id : StmtId} {cs : List StmtId}

private theorem Fit.exists_step_of_conditional {cond : ExprId} {th : StmtId}
    {el : Option StmtId} (ht : t.Proper root) (hground : t.Grounded) (hc : Fit t root c)
    (hid : t.Under root id) (hat : c.At t id (.conditional cond th el))
    (hfork : t.Fork id (.conditional cond th el) cs) : ∃ e c', Step t c e c' := by
  have hlt := hc.lt_size ht hid
  by_cases hf : ∃ choice, c.memory.progress.frame id = .branch choice
  · obtain ⟨choice, hf⟩ := hf
    cases choice with
    | some b => exact ⟨_, _, .quiet (.branch hat hf)⟩
    | none =>
        obtain ⟨p, hp⟩ := finish?_of_lt hlt
        exact ⟨_, _, .quiet (.noBranch hat hf hp)⟩
  · rw [not_exists] at hf
    have hmeets := hfork.condition_meets hground (rfl : (c.scope t).tree = t)
      (List.mem_singleton_self cond) "if condition"
    refine (Costs.choose hat hf).exists_step hmeets (fun f hv => ⟨_, .choose hat hf hv⟩)
      fun holds g hv => .inl ?_
    cases hb : (if holds then some th else el) with
    | none =>
        obtain ⟨p₁, hp₁⟩ := setFrame?_of_lt hlt (.branch none)
        obtain ⟨p, hp⟩ := finish?_of_lt (size_setFrame? hp₁ ▸ hlt)
        exact ⟨_, _, .chooseNone hat hf hv hb hp₁ hp⟩
    | some b =>
        cases hfork.children
        obtain ⟨p₁, p, hp₁, hp⟩ := hc.exists_armed ht hid hfork (mem_of_choice hb)
          (.branch (some b))
        exact ⟨_, _, .choose hat hf hv hb hp₁ hp⟩

private theorem Fit.exists_step_of_forEach {var : Name} {sel : Selector}
    {filter : Option ExprId} {sort : Option SortKey} {body : StmtId} (ht : t.Proper root)
    (hground : t.Grounded) (hc : Fit t root c) (hid : t.Under root id)
    (hat : c.At t id (.forEach var sel filter sort body))
    (hfork : t.Fork id (.forEach var sel filter sort body) cs) :
    ∃ e c', Step t c e c' := by
  by_cases hf : ∃ candidates index phase,
      c.memory.progress.frame id = .forEach candidates index phase
  · obtain ⟨candidates, index, phase, hf⟩ := hf
    exact ⟨_, _, .quiet (.forEach hat hf)⟩
  · simp only [not_exists] at hf
    have hmeets := hfork.candidates_meets hground (rfl : (c.scope t).tree = t)
    refine (Costs.list hat hf).exists_step hmeets (fun f hv => ⟨_, .list hat hf hv⟩)
      fun candidates g hv => .inl ?_
    obtain ⟨p, hp⟩ := setFrame?_of_lt (hc.lt_size ht hid) (.forEach candidates 0 .fresh)
    exact ⟨_, _, .list hat hf hv hp⟩

/-- A `wait` that knows its time spends it, to the end or not. -/
private theorem Owes.exists_step {owed : Number} {g : Generator} (h : c.Owes t id owed g)
    (hlt : id < c.memory.progress.nodes.size) : ∃ e c', Step t c e c' := by
  by_cases hl : c.left owed ≤ .zero
  · obtain ⟨p, hp⟩ := finish?_of_lt hlt
    exact ⟨_, _, .waited h hl hp⟩
  · obtain ⟨p, hp⟩ := setFrame?_of_lt hlt (.wait (c.left owed))
    exact ⟨_, _, .waiting h hl hp⟩

private theorem Fit.exists_step_of_wait {duration : ExprId} (ht : t.Proper root)
    (hground : t.Grounded) (hc : Fit t root c) (hid : t.Under root id)
    (hat : c.At t id (.wait duration)) (hfork : t.Fork id (.wait duration) cs) :
    ∃ e c', Step t c e c' := by
  have hlt := hc.lt_size ht hid
  by_cases hf : ∃ owed, c.memory.progress.frame id = .wait owed
  · obtain ⟨owed, hf⟩ := hf
    exact (Owes.again hat hf).exists_step hlt
  · have hunready : c.Unready t id duration := ⟨hat, fun owed h => hf ⟨owed, h⟩⟩
    cases hb : c.memory.budget.hasTime with
    | false => exact ⟨_, _, .waitRefused hb hunready⟩
    | true =>
        have hmeets := hfork.duration_meets hground (rfl : (c.scope t).tree = t)
          (List.mem_singleton_self duration)
        rcases hmeets.exists_outcome c.memory.generator with ⟨time, g, hv⟩ | ⟨f, hv⟩
        · exact (Owes.first hunready hb hv).exists_step hlt
        · exact ⟨_, _, .waitFaulted hb hunready hv⟩

private theorem Fit.exists_step_of_at {s : Stmt} (ht : t.Proper root)
    (hground : t.Grounded) (hc : Fit t root c) (hat : c.At t id s) :
    ∃ e c', Step t c e c' := by
  have hid := (hc.sound.of_at hat).1.under
  obtain ⟨cs, hfork⟩ := hc.sound.fork_of_at ht hat
  obtain ⟨p, hp⟩ := finish?_of_lt (hc.lt_size ht hid)
  cases s with
  | sequence body => exact ⟨_, _, .quiet (.sequence hat hfork.children)⟩
  | assign target value =>
      have hmeets := hfork.evaluate_meets hground (rfl : (c.scope t).tree = t)
        (List.mem_singleton_self value)
      refine (Costs.assign hat).exists_step hmeets (fun f hv => ⟨_, .assign hat hv⟩)
        fun v g hv => ?_
      cases hg : c.memory.globals.assign target v with
      | ok globals => exact .inl ⟨_, _, .assign hat hv hg hp⟩
      | error r => exact .inr ⟨_, _, .write hat hv hg⟩
  | conditional => exact hc.exists_step_of_conditional ht hground hid hat hfork
  | «while» cond body => exact ⟨_, _, .quiet (.while hat)⟩
  | forEach => exact hc.exists_step_of_forEach ht hground hid hat hfork
  | wait => exact hc.exists_step_of_wait ht hground hid hat hfork
  | leaveLoop =>
      cases hb : c.memory.budget.canStep with
      | false => exact ⟨_, _, .refused hb (.leaveLoop hat)⟩
      | true =>
          cases hl : c.memory.loops with
          | nil => exact ⟨_, _, .faulted hb (.leaveLoop hat hl)⟩
          | cons loop ls => exact ⟨_, _, .deed hb (.leaveLoop hat hl hp)⟩
  | print value =>
      have hmeets := hfork.evaluate_meets hground (rfl : (c.scope t).tree = t)
        (List.mem_singleton_self value)
      exact (Costs.print hat).exists_step hmeets (fun f hv => ⟨_, .print hat hv⟩)
        fun v g hv => .inl ⟨_, _, .print hat hv hp⟩
  | skip => exact ⟨_, _, .quiet (.skip hat hp)⟩
  | act action =>
      have hmeets := hfork.command_meets hground (rfl : (c.scope t).tree = t)
      exact (Costs.act hat).exists_step hmeets (fun f hv => ⟨_, .act hat hv⟩)
        fun command g hv => .inl ⟨_, _, .act hat hv hp⟩

private theorem Fit.exists_step_of_atHead {s : Stmt} (ht : t.Proper root)
    (hground : t.Grounded) (hc : Fit t root c) (hat : c.AtHead t id s) :
    ∃ e c', Step t c e c' := by
  obtain ⟨hpath, hhead⟩ := hc.sound.of_atHead hat
  obtain ⟨cs, hfork⟩ := hc.sound.fork_of_atHead ht hat
  obtain ⟨cleared, hcleared⟩ := exists_disarm? ht hpath.under hc.size
  cases s with
  | «while» cond body =>
      by_cases hf : c.memory.progress.frame id = .while .continuing
      · exact ⟨_, _, .quiet (.whileRound hat hf)⟩
      · have hmeets := hfork.condition_meets hground (rfl : (c.scope t).tree = t)
          (List.mem_singleton_self cond) "while condition"
        refine (Costs.check hat hf).exists_step hmeets (fun f hv => ⟨_, .check hat hf hv⟩)
          fun holds g hv => .inl ?_
        cases holds with
        | true =>
            cases hfork.children
            obtain ⟨p₁, p, hp₁, hp⟩ := hc.exists_armed ht hpath.under hfork
              (List.mem_singleton_self body) (.while .continuing)
            exact ⟨_, _, .check hat hf hv hp₁ hp⟩
        | false => exact ⟨_, _, .stop hat hf hv hcleared⟩
  | forEach var sel filter sort body =>
      obtain ⟨candidates, index, phase, hf, -⟩ := hhead.forEach_listed hat.stmt
      rw [← frame_eq] at hf
      cases hi : candidates[index]? with
      | none => exact ⟨_, _, .quiet (.exhausted hat hf hi hcleared)⟩
      | some candidate =>
          cases phase with
          | continuing => exact ⟨_, _, .quiet (.forEachRound hat hf hi)⟩
          | fresh =>
              cases hb : c.memory.budget.canStep with
              | false => exact ⟨_, _, .refused hb (.visit hat hf hi)⟩
              | true =>
                  cases hg : c.memory.globals.assign var candidate with
                  | error r => exact ⟨_, _, .faulted hb (.visit hat hf hi hg)⟩
                  | ok globals =>
                      cases hfork.children
                      obtain ⟨p₁, p, hp₁, hp⟩ := hc.exists_armed ht hpath.under hfork
                        (List.mem_singleton_self body)
                          (.forEach candidates index .continuing)
                      exact ⟨_, _, .deed hb (.visit hat hf hi hg hp₁ hp)⟩
  | sequence | assign | conditional | wait | leaveLoop | print | skip | act =>
      -- only a loop is gone on with
      cases hhead with
      | fresh hs | «while» hs | forEach hs => cases hs.symm.trans hat.stmt
      | round hl => cases hl with
        | whileRound hs | forEachRound hs => cases hs.symm.trans hat.stmt

end At

/-- A statement has been left, and what waits for it goes on. -/
private theorem Fit.exists_step_of_leave {flow : Flow} {task : Task} {k : List Task}
    (ht : t.Proper root) (hc : Fit t root c) (hcontrol : c.control = .leave flow)
    (hk : c.stack = task :: k) : ∃ e c', Step t c e c' := by
  have hp := hc.sound.point
  rw [hcontrol, hk] at hp
  cases flow with
  | suspended => exact ⟨_, _, .quiet (.unwind hcontrol hk (.suspended task))⟩
  | leaving loop =>
      rcases hp.of_leaving with ⟨ls, rfl, -, hpath⟩ | ⟨hloop, -⟩
      · obtain ⟨p, hp⟩ := exists_disarm? ht hpath.under hc.size
        exact ⟨_, _, .quiet (.broken hcontrol hk hp)⟩
      · cases task with
        | sequence id rest =>
            exact ⟨_, _, .quiet (.unwind hcontrol hk (.sequence id rest loop))⟩
        | branch id => exact ⟨_, _, .quiet (.unwind hcontrol hk (.branch id loop))⟩
        | round id => cases hloop
  | completed =>
      obtain ⟨id, ls, -, hpath, hb⟩ := hp.of_completed
      have hlt := hc.lt_size ht hpath.under
      obtain ⟨finished, hfinished⟩ := finish?_of_lt hlt
      cases hb with
      | @sequence body past rest _ _ _ _ _ =>
          cases rest with
          | nil => exact ⟨_, _, .quiet (.sequenceEnd hcontrol hk hfinished)⟩
          | cons child rest => exact ⟨_, _, .quiet (.next hcontrol hk)⟩
      | branch => exact ⟨_, _, .quiet (.branchEnd hcontrol hk hfinished)⟩
      | round hl _ =>
          obtain ⟨s, cs, hs, -⟩ := hl.mem
          obtain ⟨p, hp⟩ := setFrame?_of_lt hlt (nextRound s (c.memory.progress.frame id))
          exact ⟨_, _, .quiet (.roundEnd hcontrol hk hs hp)⟩

/-- **A run over a valid tree is never stuck.** -/
theorem Fit.exists_step (ht : t.Proper root) (hground : t.Grounded) (hc : Fit t root c) :
    ∃ e c', Step t c e c' := by
  have hp := hc.sound.point
  cases hcontrol : c.control with
  | enter id =>
      rw [hcontrol] at hp
      cases harmed : c.memory.progress.isArmed id with
      | false => exact ⟨_, _, .quiet (.pass hcontrol harmed)⟩
      | true =>
          obtain ⟨hpath, -⟩ := hp.of_enter (by rw [← isArmed_eq, harmed])
          obtain ⟨s, cs, hfork⟩ := ht.fork id hpath.under
          exact hc.exists_step_of_at ht hground ⟨hcontrol, harmed, hfork.stmt⟩
  | iterate id =>
      rw [hcontrol] at hp
      obtain ⟨s, cs, hfork⟩ := ht.fork id hp.of_iterate.1.under
      exact hc.exists_step_of_atHead ht hground ⟨hcontrol, hfork.stmt⟩
  | leave flow =>
      cases hk : c.stack with
      | nil => exact ⟨_, _, .quiet (.ended (by simp [outcome?, hcontrol, hk]; rfl))⟩
      | cons task k => exact hc.exists_step_of_leave ht hcontrol hk
  | raise f =>
      cases hk : c.stack with
      | nil => exact ⟨_, _, .quiet (.ended (by simp [outcome?, hcontrol, hk]; rfl))⟩
      | cons task k => exact ⟨_, _, .quiet (.passFault hcontrol hk)⟩

/-! ## Draws -/

private theorem Deed.advances {e : Event} (ht : t.Proper root) (hground : t.Grounded)
    (hc : Fit t root c) (h : Deed t c e c') :
    c.memory.generator.Advances c'.memory.generator := by
  cases h with
  | assign hat hv | print hat hv =>
      obtain ⟨cs, hfork⟩ := hc.sound.fork_of_at ht hat
      exact ((hfork.evaluate_meets hground rfl
        (List.mem_singleton_self _)).of_yields hv).1
  | act hat hv =>
      obtain ⟨cs, hfork⟩ := hc.sound.fork_of_at ht hat
      exact ((hfork.command_meets hground rfl).of_yields hv).1
  | choose hat _ hv | chooseNone hat _ hv =>
      obtain ⟨cs, hfork⟩ := hc.sound.fork_of_at ht hat
      exact ((hfork.condition_meets hground rfl (List.mem_singleton_self _)
        _).of_yields hv).1
  | list hat _ hv =>
      obtain ⟨cs, hfork⟩ := hc.sound.fork_of_at ht hat
      exact ((hfork.candidates_meets hground rfl).of_yields hv).1
  | check hat _ hv | stop hat _ hv =>
      obtain ⟨cs, hfork⟩ := hc.sound.fork_of_atHead ht hat
      exact ((hfork.condition_meets hground rfl (List.mem_singleton_self _)
        _).of_yields hv).1
  | leaveLoop | visit => exact .refl _

private theorem Owes.advances {id : StmtId} {owed : Number} {g : Generator}
    (ht : t.Proper root) (hground : t.Grounded) (hc : Fit t root c)
    (h : c.Owes t id owed g) :
    c.memory.generator.Advances g := by
  cases h with
  | first h _ hv =>
      obtain ⟨cs, hfork⟩ := hc.sound.fork_of_at ht h.at_
      exact ((hfork.duration_meets hground rfl
        (List.mem_singleton_self _)).of_yields hv).1
  | again => exact .refl _

/-- **The generator** is moved on by draws below positive finite bounds only. -/
theorem Fit.advances {e : Option Event} (ht : t.Proper root) (hground : t.Grounded)
    (hc : Fit t root c) (h : Step t c e c') :
    c.memory.generator.Advances c'.memory.generator := by
  cases h with
  | quiet h =>
      rw [h.keeps.2.2]
      exact .refl _
  | deed _ h => exact h.advances ht hground hc
  | faulted _ h =>
      cases h with
      | write hat hv =>
          obtain ⟨cs, hfork⟩ := hc.sound.fork_of_at ht hat
          exact ((hfork.evaluate_meets hground rfl
            (List.mem_singleton_self _)).of_yields hv).1
      | assign | print | act | leaveLoop | choose | list | check | visit => exact .refl _
  | refused | waitRefused | waitFaulted => exact .refl _
  | waited h | waiting h => exact h.advances ht hground hc

theorem Fit.advances_run {ms : List (Transition W)} (ht : t.Proper root)
    (hground : t.Grounded) (hc : Fit t root c) (h : Run t c ms c') :
    c.memory.generator.Advances c'.memory.generator := by
  have hkept := h.keeps
    (P := fun d => Fit t root d ∧ c.memory.generator.Advances d.memory.generator)
    ⟨hc, .refl _⟩ fun _ _ ⟨hd, hg⟩ hstep =>
      ⟨hd.step ht hstep, hg.trans (hd.advances ht hground hstep)⟩
  exact hkept.1.2

end World

/-- What a run over a valid tree can rely on at each of its configurations; `g` is the
generator with which it started. -/
structure Guarded [World W] (t : Tree) (g : Generator) (c : Config W) : Prop where
  /-- There is a next configuration: no position points outside the tables, and no
  expression and no subtree is deeper than they allow. -/
  steps : ∃ next, c.step? t = some next
  /-- Every statement has an entry in the table. -/
  size : c.memory.progress.nodes.size = t.stmts.size
  /-- No `leaveLoop` gets out of the script. -/
  enclosed : ∀ loop, c.outcome? ≠ some (.ok (.leaving loop))
  /-- A loop over the world that goes on has its candidates. -/
  listed : ∀ {id var sel filter sort body},
    c.AtHead t id (.forEach var sel filter sort body) →
    ∃ candidates index phase, c.memory.progress.frame id = .forEach candidates index phase
  /-- The generator has been asked for numbers below positive finite bounds only. -/
  drawn : g.Advances c.memory.generator

/-- Runs over valid trees are guarded. -/
theorem Fit.guarded [World W] {c₀ : Config W} {ms : List (Transition W)}
    (ht : t.Proper root) (hground : t.Grounded) (hc₀ : Fit t root c₀)
    (h : Run t c₀ ms c) :
    c.Guarded t c₀.memory.generator := by
  have hc := hc₀.run ht h
  refine ⟨?_, hc.size, fun loop ho => ?_, fun hat => ?_, hc₀.advances_run ht hground h⟩
  · obtain ⟨e, c', hstep⟩ := hc.exists_step ht hground
    exact ⟨_, step?_eq_some_iff.mpr hstep⟩
  · cases (hc.sound.over_of_outcome ho).1
  · obtain ⟨candidates, index, phase, hf, -⟩ :=
      (hc.sound.of_atHead hat).2.forEach_listed hat.stmt
    exact ⟨candidates, index, phase, (frame_eq _ _).trans hf⟩

end Machine.Config

/-! ## Programs -/

namespace Program

open Machine Machine.Config Progress

variable {W : Type} {t : Tree} {root : StmtId} {p q : Program}

/-- **A valid tree can be started.** -/
theorem exists_start (h : t.validate = .ok root) (subject : ActorId)
    (settings : Settings) :
    ∃ p, start t subject settings = .ok p ∧ p.root = root := by
  have hsize : (Progress.idle t.stmts.size).nodes.size = t.stmts.size :=
    Array.size_replicate
  obtain ⟨progress, hp⟩ := exists_arm? (Tree.proper_of_validate h) (.refl root) hsize
  exact ⟨_, start_eq_ok_iff.mpr ⟨root, progress, h, hp, rfl⟩, rfl⟩

theorem validate_of_start {subject : ActorId} {settings : Settings}
    (h : start t subject settings = .ok p) : t.validate = .ok p.root := by
  obtain ⟨root, progress, hroot, -, rfl⟩ := start_eq_ok_iff.mp h
  exact hroot

variable [World W]

/-- Ticks keep an entry for every statement. -/
theorem size_of_ticks {ok : Nat → Program → W → Number → Prop} {subject : ActorId}
    {settings : Settings} {es : List Event} (hstart : start t subject settings = .ok p)
    (h : Ticks ok p es q) : q.memory.progress.nodes.size = t.stmts.size := by
  have hkept : Kept W t p.root fun m => m.progress.nodes.size = t.stmts.size :=
    { opening := fun _ hm => hm
      step := fun _ hc hstep => hstep.size_eq.trans hc
      settle := fun _ _ hm => hm }
  refine hkept.ticks (started_of_start hstart) ?_ h
  obtain ⟨root, progress, -, hp, rfl⟩ := start_eq_ok_iff.mp hstart
  exact (size_arm? hp).trans Array.size_replicate

/-- A tick of a program that has been started opens at a configuration in order. -/
theorem fit_opening {ok : Nat → Program → W → Number → Prop} {subject : ActorId}
    {settings : Settings} {es : List Event} (hstart : start t subject settings = .ok p)
    (h : Ticks ok p es q) (hrun : (q.isHalted || q.isFinished) = false) (w : W)
    (budget : Number) : Fit t p.root (q.opening w budget) :=
  ⟨sound_opening (settled_of_ticks (started_of_start hstart) h) hrun w budget,
    size_of_ticks hstart h⟩

/--
**A valid tree never leaves the machine without a next step.**  Its expressions have an
outcome in every scope, and that outcome is a value or a transient fault; its statements
can be armed and disarmed in every table that has an entry for each of them; and it can be
started.  From there on, whatever the budgets and the worlds, every configuration of every
tick is guarded.
-/
theorem never_stuck (hvalid : t.validate = .ok root) (subject : ActorId)
    (settings : Settings) :
    (∀ s : Scope W, s.tree = t → ∀ e < t.exprs.size,
      (s.evaluate e).Meets (fun _ => True) Fault.IsTransient) ∧
    (∀ (table : Progress) (id : StmtId), table.nodes.size = t.stmts.size →
      t.Under root id →
      (∃ armed, table.arm? t id = some armed) ∧ ∃ cleared,
        table.disarm? t id = some cleared) ∧
    ∃ p, start t subject settings = .ok p ∧
      ∀ es q, Reached W p es q → (q.isHalted || q.isFinished) = false →
        ∀ (w : W) (budget : Number) ms c, Run t (q.opening w budget) ms c →
          c.Guarded t q.memory.generator := by
  have ht := Tree.proper_of_validate hvalid
  have hground := Tree.grounded_of_validate hvalid
  refine ⟨fun s hs e he => ?_, fun table id hsize hid => ?_, ?_⟩
  · subst hs
    exact (s.evaluate_meets hground he).mono (fun _ _ => trivial) fun _ hf => hf
  · exact ⟨exists_arm? ht hid hsize, exists_disarm? ht hid hsize⟩
  · obtain ⟨p, hstart, rfl⟩ := exists_start hvalid subject settings
    refine ⟨p, hstart, fun es q h hrun w budget ms c hms => ?_⟩
    exact (fit_opening hstart h hrun w budget).guarded ht hground hms

/-- The first tick of a script that goes on for ever is guarded. -/
theorem never_stuck_restless :
    restless.validate = .ok 4 ∧
      ∃ p, start restless 1 = .ok p ∧
        ∀ (w : GridWorld) (budget : Number) ms c, Run restless (p.opening w budget) ms c →
          c.Guarded restless p.memory.generator := by
  have hvalid : restless.validate = .ok 4 := by rfl
  obtain ⟨p, hstart, hguarded⟩ := (never_stuck (W := GridWorld) hvalid 1 {}).2.2
  exact ⟨hvalid, p, hstart, hguarded [] p .start (started_of_start hstart).going⟩

end Program

end ActorScript
