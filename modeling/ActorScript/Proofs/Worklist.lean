import ActorScript.Proofs.TreeShape
import Mathlib.Data.List.Perm.Subperm

/-!
# Validation with strict reads

`Tree.validate` reads the tables of a tree through options, and a read that
finds nothing ends in an error like any other.  So its totality says little about
its reads.  `Tree.inspect` is the same validation with nothing to catch such a
read: the statements to visit wait on a stack, and a read outside of a table
leaves the whole validation without an answer, as does a stack that is not empty
after a fixed number of rounds.

## Main results

* `continues_stmt` — on every graph of statements the rounds with the stack
  suffice, read inside the tables, and answer what the walk answers.
* `inspect_run` — `inspect` has an answer for every tree, and it is that of
  `validate`.
-/

namespace ActorScript.Tree

/-- Checks that read tables.  There is no answer once a read finds nothing. -/
abbrev Reading := ExceptT TreeError Option

/--
Visits the statements on the stack, each with whether a loop stands around it,
and those under them.  A visited statement goes to `visited`, and its children go
on top of the stack, the last one first.
-/
def visitAll (t : Tree) : Nat → List (StmtId × Bool) → List StmtId → Reading Unit
  | _, [], _ => pure ()
  | 0, _ :: _, _ => (none : Option Unit)
  | rounds + 1, (id, inLoop) :: work, visited => do
      if visited.contains id then throw (.sharedStmt id)
      let s ← t.stmt? id
      liftExcept (t.checkStmt inLoop id s)
      let children ← t.childrenOf? s
      liftExcept (children.forM (t.checkChild id))
      let pushed := children.reverse.map fun c => (c, inLoop || s.isLoop)
      t.visitAll rounds (pushed ++ work) (id :: visited)

/-- The root of a tree that can be run, or the first defect.  Every round but the
last one visits another statement of the table. -/
def inspect (t : Tree) : Reading StmtId := do
  let some root := t.root | throw .missingRoot
  liftExcept (t.checkGlobals [] (t.globals.toList.map Prod.fst))
  (List.range t.exprs.size).forM fun id => do
    let e ← t.expr? id
    liftExcept (e.operands.forM (t.checkOperand id))
  if t.stmts.size ≤ root then throw (.missingStmt root)
  t.visitAll (t.stmts.size + 1) [(root, false)] []
  return root

/-! ## Answers -/

/-- The checks find all that they read and answer `x`. -/
def Answers {α : Type} (m : Reading α) (x : Except TreeError α) : Prop := m.run = some x

theorem answers_pure {α : Type} (a : α) : Answers (pure a) (.ok a) := rfl

theorem answers_throw {α : Type} (e : TreeError) :
    Answers (throw e : Reading α) (.error e) := rfl

theorem answers_liftExcept {α : Type} (x : Except TreeError α) :
    Answers (liftExcept x) x := by
  cases x with
  | error e => rfl
  | ok a => rfl

theorem Answers.bind {α β : Type} {m : Reading α} {x : Except TreeError α}
    {f : α → Reading β} {g : α → Except TreeError β} (hm : Answers m x)
    (hf : ∀ a, x = .ok a → Answers (f a) (g a)) :
    Answers (m >>= f) (x >>= g) := by
  unfold Answers at hm
  rw [Answers, ExceptT.run_bind, hm]
  cases x with
  | error e => rfl
  | ok a => exact hf a rfl

/-- A read that finds its entry hands it on. -/
theorem Answers.read {α β : Type} {o : Option α} {a : α} {f : α → Reading β}
    {x : Except TreeError β} (ho : o = some a) (hf : Answers (f a) x) :
    Answers (liftM o >>= f) x := by
  subst ho
  exact hf

theorem answers_forM {α : Type} {f : α → Reading Unit} {g : α → Except TreeError Unit} :
    ∀ {as : List α}, (∀ a ∈ as, Answers (f a) (g a)) →
      Answers (as.forM f) (as.forM g) := by
  intro as
  induction as with
  | nil =>
      intro _
      exact answers_pure ()
  | cons a as ih =>
      intro h
      exact (h a (by simp)).bind fun _ _ => ih fun b hb => h b (List.mem_cons_of_mem _ hb)

/-! ## The rounds with the stack -/

/-- The statements visited so far: different ones, all of the table. -/
structure Seen (t : Tree) (visited : List StmtId) : Prop where
  nodup : visited.Nodup
  lt_size : ∀ id ∈ visited, id < t.stmts.size

/-- The rounds left once some statements have been visited. -/
def roundsLeft (t : Tree) (visited : List StmtId) : Nat :=
  t.stmts.size + 1 - visited.length

theorem Seen.cons {t : Tree} {visited : List StmtId} {id : StmtId} (h : t.Seen visited)
    (hid : id < t.stmts.size) (hnew : id ∉ visited) : t.Seen (id :: visited) where
  nodup := List.nodup_cons.mpr ⟨hnew, h.nodup⟩
  lt_size := List.forall_mem_cons.mpr ⟨hid, h.lt_size⟩

theorem Seen.length_le {t : Tree} {visited : List StmtId} (h : t.Seen visited) :
    visited.length ≤ t.stmts.size := by
  have hsub : visited ⊆ List.range t.stmts.size :=
    fun id hid => List.mem_range.mpr (h.lt_size id hid)
  simpa using (h.nodup.subperm hsub).length_le

/-- A round is left as long as different statements have been visited. -/
theorem Seen.roundsLeft_eq {t : Tree} {visited : List StmtId} (h : t.Seen visited)
    (id : StmtId) :
    t.roundsLeft visited = t.roundsLeft (id :: visited) + 1 := by
  have hle := h.length_le
  simp only [roundsLeft, List.length_cons]
  omega

/-- From every set of statements visited, the rounds that are left empty the
stack and answer `rest`. -/
def Continues (t : Tree) (work : List (StmtId × Bool))
    (rest : List StmtId → Except TreeError Unit) : Prop :=
  ∀ visited, t.Seen visited →
    Answers (t.visitAll (t.roundsLeft visited) work visited) (rest visited)

theorem continues_nil (t : Tree) : t.Continues [] fun _ => .ok () := by
  intro visited _
  unfold visitAll
  exact answers_pure ()

/-- Children on the stack are visited in turn, as a fold visits them. -/
theorem continues_children {t : Tree} {inLoop : Bool} {work : List (StmtId × Bool)}
    {rest : List StmtId → Except TreeError Unit}
    {visit : List StmtId → StmtId → Except TreeError (List StmtId)}
    (hrest : t.Continues work rest) :
    ∀ {ids : List StmtId},
      (∀ id ∈ ids, ∀ work rest, t.Continues work rest →
        t.Continues ((id, inLoop) :: work) fun visited => visit visited id >>= rest) →
      t.Continues (ids.map (fun id => (id, inLoop)) ++ work) fun visited =>
        ids.foldlM visit visited >>= rest := by
  intro ids
  induction ids with
  | nil =>
      intro _
      exact hrest
  | cons id ids ih =>
      intro hvisit visited hseen
      have hids := ih fun c hc => hvisit c (List.mem_cons_of_mem _ hc)
      simp only [List.foldlM_cons, bind_assoc]
      exact hvisit id (by simp) _ _ hids visited hseen

/-- **A statement on the stack is visited as the walk visits it.**  The bound of
the walk is above the statement, so it does not run out either. -/
theorem continues_stmt {t : Tree} {bound : Nat} {inLoop : Bool} {id : StmtId}
    (hbound : id < bound) (hid : id < t.stmts.size) (work : List (StmtId × Bool))
    (rest : List StmtId → Except TreeError Unit) (hrest : t.Continues work rest) :
    t.Continues ((id, inLoop) :: work) fun visited =>
      t.walk bound inLoop visited id >>= rest := by
  induction bound generalizing inLoop id work rest with
  | zero => exact absurd hbound (Nat.not_lt_zero id)
  | succ bound ih =>
      intro visited hseen
      rw [hseen.roundsLeft_eq id]
      unfold visitAll walk
      by_cases hnew : visited.contains id = true
      · simp only [hnew, if_true]
        exact answers_throw _
      · obtain ⟨s, hs⟩ : ∃ s, t.stmt? id = some s := ⟨_, Array.getElem?_eq_getElem hid⟩
        simp only [hnew, hs, Bool.false_eq_true, if_false, bind_assoc]
        refine .read rfl ((answers_liftExcept _).bind fun _ hstmt => ?_)
        obtain ⟨⟨cs, hcs⟩, -⟩ := checkStmt_eq_ok_iff.mp hstmt
        simp only [hcs, Option.getD_some]
        refine .read rfl ((answers_liftExcept _).bind fun _ hchildren => ?_)
        refine continues_children hrest (fun c hc work rest hrest => ?_) _
          (hseen.cons hid (by simpa using hnew))
        obtain ⟨hsize, hlt⟩ :=
          checkChild_eq_ok_iff.mp (forM_eq_ok_iff.mp hchildren c (List.mem_reverse.mp hc))
        exact ih (Nat.lt_of_lt_of_le hlt (Nat.lt_succ_iff.mp hbound)) hsize
          work rest hrest

/-! ## The whole validation -/

/-- The expressions are read by their positions. -/
theorem answers_exprs (t : Tree) :
    Answers ((List.range t.exprs.size).forM fun id => do
      let e ← t.expr? id
      liftExcept (e.operands.forM (t.checkOperand id))) t.checkExprs := by
  have hrange : List.range t.exprs.size = t.exprs.toList.zipIdx.map Prod.snd := by
    rw [List.zipIdx_map_snd, List.range_eq_range', Array.length_toList]
  rw [hrange, List.forM_eq_forM, List.forM_map, checkExprs]
  refine answers_forM ?_
  rintro ⟨e, id⟩ he
  rw [List.mem_zipIdx_iff_getElem?, Array.getElem?_toList] at he
  exact .read he (answers_liftExcept _)

/-- The walk finds nothing at a position outside of the table. -/
theorem walk_of_size_le {t : Tree} {bound : Nat} {inLoop : Bool} {id : StmtId}
    (hid : t.stmts.size ≤ id) : t.walk bound inLoop [] id = .error (.missingStmt id) := by
  have hs : t.stmt? id = none := Array.getElem?_eq_none hid
  cases bound with
  | zero => rfl
  | succ bound => simp [walk, hs]

/-- **Validation reads inside the tables.**  `inspect` has an answer on every
tree, and it is the one of `validate`. -/
theorem inspect_run (t : Tree) : t.inspect.run = some t.validate := by
  unfold inspect validate
  cases hroot : t.root with
  | none => rfl
  | some root =>
      refine (answers_liftExcept _).bind fun _ _ => (answers_exprs t).bind fun _ _ => ?_
      by_cases hsize : t.stmts.size ≤ root
      · simp only [hsize, if_true, walk_of_size_le hsize]
        exact answers_throw _
      · have hlt : root < t.stmts.size := Nat.not_le.mp hsize
        have hvisit : Answers (t.visitAll (t.stmts.size + 1) [(root, false)] [])
            (t.walk t.stmts.size false [] root >>= fun _ => .ok ()) :=
          continues_stmt hlt hlt [] _ (continues_nil t) [] ⟨.nil, by simp⟩
        have hreturn := hvisit.bind (g := fun _ => .ok root) fun _ _ => answers_pure root
        rw [bind_assoc] at hreturn
        simp only [hsize, if_false]
        exact hreturn

end ActorScript.Tree
