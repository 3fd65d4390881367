import ActorScript.Proofs.Transition

/-!
# Continuation points

Between two ticks all that is left of a run is the table of progress.  This
module says which tables are well formed, and how a table and a stack of tasks
describe the same point of a script.

* `Idle`, `Fresh` — a subtree that is done, and one as `arm?` leaves it.
* `Link` — a statement in progress, with the child that it is at work on; what
  stands beside the child is as it has to be.
* `Active` — a statement with work to do: fresh, or in progress down a chain of
  links to a statement that is about to run.
* `Path` — the chain of links from the root to a statement, beside the stack of
  tasks and the loops that a run has gathered on the way there.

A path does not depend on what the table holds under its end (`Path.congr`), and
an active end makes the root active (`Path.active_root`).  These two are what
every step of the machine needs to keep the table well formed.
-/

namespace ActorScript.Progress

open Machine (Task)

/-- Nothing under the statement has anything to do. -/
def Idle (t : Tree) (p : Progress) (id : StmtId) : Prop :=
  ∀ j, t.Under id j → p.node j = idleNode

/-- The statement and all under it are as `arm?` leaves them. -/
structure Fresh (t : Tree) (p : Progress) (id : StmtId) : Prop where
  spine : ∀ j, t.Spine id j → p.node j = { armed := true }
  rest : ∀ j, t.Under id j → ¬ t.Spine id j → p.node j = idleNode

/-- The statement `id` is in progress, and `child` is what it is at work on.  The
task is what a run leaves on its stack to go on with `id`. -/
inductive Link (t : Tree) (p : Progress) (id : StmtId) : Task → StmtId → Prop
  | sequence {body : Slice} {past later : List StmtId} {child : StmtId}
      (hs : t.stmt? id = some (.sequence body))
      (hcs : t.slice? body = some (past ++ child :: later))
      (hn : p.node id = { armed := true })
      (hpast : ∀ d ∈ past, p.Idle t d) (hlater : ∀ d ∈ later, p.Fresh t d) :
      Link t p id (.sequence id later) child
  | thenBranch {cond : ExprId} {th : StmtId} {el : Option StmtId}
      (hs : t.stmt? id = some (.conditional cond th el))
      (hn : p.node id = { armed := true, frame := .branch (some th) })
      (hel : ∀ e ∈ el, p.Idle t e) :
      Link t p id (.branch id) th
  | elseBranch {cond : ExprId} {th el : StmtId}
      (hs : t.stmt? id = some (.conditional cond th (some el)))
      (hn : p.node id = { armed := true, frame := .branch (some el) })
      (hth : p.Idle t th) :
      Link t p id (.branch id) el
  | whileRound {cond : ExprId} {body : StmtId}
      (hs : t.stmt? id = some (.while cond body))
      (hn : p.node id = { armed := true, frame := .while .continuing }) :
      Link t p id (.round id) body
  | forEachRound {var : Name} {sel : Selector} {filter : Option ExprId}
      {sort : Option SortKey} {body : StmtId} {candidates : List Value} {index : Nat}
      (hs : t.stmt? id = some (.forEach var sel filter sort body))
      (hn : p.node id =
        { armed := true, frame := .forEach candidates index .continuing })
      (hi : index < candidates.length) :
      Link t p id (.round id) body

/-- The statement has work to do, and the table under it is well formed: it is
fresh or in progress. -/
inductive Active (t : Tree) (p : Progress) : StmtId → Prop
  | fresh {id : StmtId} (h : p.Fresh t id) : Active t p id
  | link {id child : StmtId} {task : Task} (h : Link t p id task child)
      (hc : Active t p child) : Active t p id
  | whileHead {id : StmtId} {cond : ExprId} {body : StmtId}
      (hs : t.stmt? id = some (.while cond body))
      (hn : p.node id = { armed := true, frame := .while .fresh })
      (hb : p.Idle t body) : Active t p id
  | forEachHead {id : StmtId} {var : Name} {sel : Selector} {filter : Option ExprId}
      {sort : Option SortKey} {body : StmtId} {candidates : List Value} {index : Nat}
      (hs : t.stmt? id = some (.forEach var sel filter sort body))
      (hn : p.node id = { armed := true, frame := .forEach candidates index .fresh })
      (hi : index < candidates.length) (hb : p.Idle t body) : Active t p id
  | wait {id : StmtId} {duration : ExprId} {owed : Number}
      (hs : t.stmt? id = some (.wait duration))
      (hn : p.node id = { armed := true, frame := .wait owed })
      (hfin : owed.isFinite = true) (hpos : .zero < owed) : Active t p id

/-- The way from the root to a statement in progress, with the tasks and the
loops that lie on it, the innermost first. -/
inductive Path (t : Tree) (p : Progress) (root : StmtId) :
    StmtId → List Task → List StmtId → Prop
  | root : Path t p root root [] []
  | link {id child : StmtId} {task : Task} {k : List Task} {ls : List StmtId}
      (h : Path t p root id k ls) (hl : Link t p id task child) :
      Path t p root child (task :: k) (task.loop?.toList ++ ls)

variable {t : Tree} {p q : Progress} {root id c : StmtId} {task : Task}
  {k : List Task} {ls : List StmtId}

/-! ## Subtrees at rest and subtrees ready to run -/

theorem Idle.congr (h : p.Idle t id) (hq : ∀ j, t.Under id j → q.node j = p.node j) :
    q.Idle t id := by
  intro j hj
  rw [hq j hj, h j hj]

theorem Fresh.congr (h : p.Fresh t id) (hq : ∀ j, t.Under id j → q.node j = p.node j) :
    q.Fresh t id where
  spine j hj := by rw [hq j hj.under, h.spine j hj]
  rest j hj hns := by rw [hq j hj, h.rest j hj hns]

theorem idle_of_cleared (h : Cleared t id p q) : q.Idle t id := h.under

theorem fresh_of_readied (h : Readied t id p q) : q.Fresh t id := ⟨h.spine, h.under⟩

theorem Idle.node_eq (h : p.Idle t id) : p.node id = idleNode := h id (.refl id)

theorem Fresh.node_eq (h : p.Fresh t id) : p.node id = { armed := true } :=
  h.spine id (.refl id)

/-- The children of a fresh sequence are fresh. -/
theorem Fresh.child_of_sequence (h : p.Fresh t id) (ht : t.Proper root)
    (hid : t.Under root id) {body : Slice} {cs : List StmtId}
    (hs : t.stmt? id = some (.sequence body)) (hcs : t.slice? body = some cs)
    (hc : c ∈ cs) : p.Fresh t c := by
  have hf : t.Fork id (.sequence body) cs := ht.fork_eq hid hs hcs
  refine ⟨fun j hj => h.spine j (.child hs hcs hc hj), fun j hj hns => ?_⟩
  refine h.rest j (.child hf.children? hc hj) fun hsp => ?_
  -- the spine of the sequence meets the subtree of `c` only in the spine of `c`
  rcases (Tree.spine_iff_of_sequence hs hcs).mp hsp with rfl | ⟨d, hd, hdj⟩
  · exact ht.not_under_child hid hf hc hj
  · by_cases hdc : d = c
    · subst hdc
      exact hns hdj
    · exact hf.apart_of_ne hc hd hdc j hj hdj.under

/-- The children of any other fresh statement are at rest. -/
theorem Fresh.child_of_not_sequence (h : p.Fresh t id) (ht : t.Proper root)
    (hid : t.Under root id) {s : Stmt} {cs : List StmtId} (hs : t.stmt? id = some s)
    (hcs : t.childrenOf? s = some cs) (hne : ∀ body, s ≠ .sequence body)
    (hc : c ∈ cs) : p.Idle t c := by
  have hf : t.Fork id s cs := ht.fork_eq hid hs hcs
  intro j hj
  refine h.rest j (.child hf.children? hc hj) fun hsp => ?_
  rw [Tree.spine_iff_of_not_sequence hs hne] at hsp
  subst hsp
  exact ht.not_under_child hid hf hc hj

/-! ## Links -/

/-- The child that a statement is at work on is one of its children. -/
theorem Link.mem (h : Link t p id task c) :
    ∃ s cs, t.stmt? id = some s ∧ t.childrenOf? s = some cs ∧ c ∈ cs := by
  cases h with
  | sequence hs hcs => exact ⟨_, _, hs, hcs, by simp⟩
  | thenBranch hs => exact ⟨_, _, hs, rfl, by simp⟩
  | elseBranch hs => exact ⟨_, _, hs, rfl, by simp⟩
  | whileRound hs => exact ⟨_, _, hs, rfl, by simp⟩
  | forEachRound hs => exact ⟨_, _, hs, rfl, by simp⟩

theorem Link.under (h : Link t p id task c) : t.Under id c := by
  obtain ⟨s, cs, hs, hcs, hc⟩ := h.mem
  exact .of_child ((Tree.children?_eq hs).trans hcs) hc

theorem Link.armed (h : Link t p id task c) : (p.node id).armed = true := by
  cases h <;> simp [*]

/-- What stands beside the child that a statement is at work on is at rest or fresh. -/
theorem Link.beside (h : Link t p id task c) {s : Stmt} {cs : List StmtId} {d : StmtId}
    (hs : t.stmt? id = some s) (hcs : t.childrenOf? s = some cs) (hd : d ∈ cs)
    (hne : d ≠ c) : p.Idle t d ∨ p.Fresh t d := by
  cases h with
  | sequence hs' hcs' hn hpast hlater =>
      rw [hs] at hs'
      cases hs'
      cases hcs'.symm.trans hcs
      rcases List.mem_append.mp hd with hd | hd
      · exact .inl (hpast d hd)
      · rcases List.mem_cons.mp hd with rfl | hd
        · exact absurd rfl hne
        · exact .inr (hlater d hd)
  | thenBranch hs' hn hel =>
      rw [hs] at hs'
      cases hs'
      cases hcs
      rcases List.mem_cons.mp hd with rfl | hd
      · exact absurd rfl hne
      · exact .inl (hel d (Option.mem_toList.mp hd))
  | elseBranch hs' hn hth =>
      rw [hs] at hs'
      cases hs'
      cases hcs
      rcases List.mem_cons.mp hd with rfl | hd
      · exact .inl hth
      · exact absurd (List.mem_singleton.mp hd) hne
  | whileRound hs' | forEachRound hs' =>
      rw [hs] at hs'
      cases hs'
      cases hcs
      exact absurd (List.mem_singleton.mp hd) hne

/-- A link does not depend on what the table holds under the child. -/
theorem Link.congr (h : Link t p id task c) (ht : t.Proper root) (hid : t.Under root id)
    (hq : ∀ j, t.Under id j → ¬ t.Under c j → q.node j = p.node j) :
    Link t q id task c := by
  have hself : q.node id = p.node id := by
    obtain ⟨s, cs, hs, hcs, hc⟩ := h.mem
    exact hq id (.refl id) (ht.not_under_child hid (ht.fork_eq hid hs hcs) hc)
  -- what stands beside the child is apart from it, so it keeps its entries
  have hbeside : ∀ {s cs}, t.Fork id s cs → ∀ d ∈ cs, t.Apart d c →
      ∀ j, t.Under d j → q.node j = p.node j :=
    fun hf d hd hapart j hj => hq j (.child hf.children? hd hj) (hapart j hj)
  cases h with
  | sequence hs hcs hn hpast hlater =>
      have hf := ht.fork_eq hid hs hcs
      refine .sequence hs hcs (hself.trans hn) (fun d hd => ?_) (fun d hd => ?_)
      · exact (hpast d hd).congr (hbeside hf d (by simp [hd]) (hf.apart_before hd))
      · exact (hlater d hd).congr (hbeside hf d (by simp [hd]) (hf.apart_after hd).symm)
  | @thenBranch cond th el hs hn hel =>
      have hf : t.Fork id _ (c :: el.toList) := ht.fork_eq hid hs rfl
      refine .thenBranch hs (hself.trans hn) fun e he => ?_
      have hmem : e ∈ el.toList := Option.mem_toList.mpr he
      have hapart : t.Apart c e := List.rel_of_pairwise_cons hf.apart hmem
      exact (hel e he).congr (hbeside hf e (List.mem_cons_of_mem _ hmem) hapart.symm)
  | @elseBranch cond th el hs hn hth =>
      have hf : t.Fork id _ [th, c] := ht.fork_eq hid hs rfl
      have hapart : t.Apart th c := List.rel_of_pairwise_cons hf.apart (by simp)
      exact .elseBranch hs (hself.trans hn) (hth.congr (hbeside hf th (by simp) hapart))
  | whileRound hs hn => exact .whileRound hs (hself.trans hn)
  | forEachRound hs hn hi => exact .forEachRound hs (hself.trans hn) hi

/-! ## Active statements -/

theorem Active.armed (h : p.Active t id) : (p.node id).armed = true := by
  cases h with
  | fresh h => rw [h.node_eq]
  | link h _ => exact h.armed
  | whileHead _ hn | forEachHead _ hn | wait _ hn => rw [hn]

theorem Active.not_idle (h : p.Active t id) : ¬ p.Idle t id := by
  intro hidle
  have harmed := h.armed
  rw [hidle.node_eq] at harmed
  cases harmed

/-! ## Paths -/

theorem Path.under (h : Path t p root id k ls) : t.Under root id := by
  induction h with
  | root => exact .refl root
  | link _ hl ih => exact ih.trans hl.under

/-- The loops on a path are those of its tasks. -/
theorem Path.loops_eq (h : Path t p root id k ls) : ls = k.filterMap Task.loop? := by
  induction h with
  | root => rfl
  | @link _ _ task _ _ _ _ ih =>
      rw [ih]
      cases h : task.loop? <;> simp [h]

/-- A path does not depend on what the table holds under its end. -/
theorem Path.congr (h : Path t p root id k ls) (ht : t.Proper root)
    (hq : ∀ j, ¬ t.Under id j → q.node j = p.node j) : Path t q root id k ls := by
  induction h with
  | root => exact .root
  | link h hl ih =>
      refine .link (ih fun j hj => hq j fun hcj => hj (hl.under.trans hcj)) ?_
      exact hl.congr ht h.under fun j _ hcj => hq j hcj

/-- A path to an active statement makes the root active. -/
theorem Path.active_root (h : Path t p root id k ls) (ha : p.Active t id) :
    p.Active t root := by
  induction h with
  | root => exact ha
  | link _ hl ih => exact ih (.link hl ha)

end ActorScript.Progress
