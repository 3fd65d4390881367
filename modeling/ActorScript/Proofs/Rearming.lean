import ActorScript.Proofs.InBounds
import ActorScript.Proofs.Worklist

/-!
# Making a subtree ready again

A subtree is marked as done, and made ready to run, whatever its entries in the table are
at the time.  `disarm?` and `arm?` take the statements that they write to from a list that
the tree gives them.  The same writes can be made from a stack, with no list in advance:
each statement taken off it is written to and gives way to its children.  In a valid tree
the stack is empty after no more rounds than there are statements, and the table is the
same.

## Main results

* `Visits` — a stack goes through the statements of a list, in their order.
* `exists_visits` — from a statement of a valid tree it goes through every statement under
  it, once.
* `disarmBy?_eq`, `armBy?_eq` — the loops with the stack make the tables of `disarm?` and
  `arm?`.
* `arm_resets_subtree` — the two write to one subtree and look at nothing in it.
-/

namespace ActorScript

/-- What is armed along with a statement: the statements of a sequence. -/
def Tree.listed? (t : Tree) (id : StmtId) : Option (List StmtId) := do
  match ← t.stmt? id with
  | .sequence body => t.slice? body
  | _ => some []

namespace Progress

open Machine (Config Transition Run)

/-! ## Loops with a stack -/

/--
Works off a stack of statements, in so many rounds at most: the one on top is written to
and gives way to those that `below?` has for it, the last of them on top.  There is no
answer if one of them has no entry, or if the stack is not empty in the end.
-/
def sweep? (write? : Progress → StmtId → Option Progress)
    (below? : StmtId → Option (List StmtId)) :
    Nat → List StmtId → Progress → Option Progress
  | _, [], p => some p
  | 0, _ :: _, _ => none
  | rounds + 1, id :: stack, p => do
      let p ← write? p id
      let ids ← below? id
      sweep? write? below? rounds (ids.reverse ++ stack) p

/-- Marks a statement and everything under it as done, with a stack. -/
def disarmBy? (p : Progress) (t : Tree) (rounds : Nat) (id : StmtId) : Option Progress :=
  sweep? finish? t.children? rounds [id] p

/-- Makes a statement ready to run from its start, with a stack. -/
def armBy? (p : Progress) (t : Tree) (rounds : Nat) (id : StmtId) : Option Progress := do
  sweep? mark? t.listed? rounds [id] (← p.disarmBy? t rounds id)

variable {t : Tree} {root id c : StmtId} {p p' q q' : Progress} {rounds : Nat}
  {below? : StmtId → Option (List StmtId)} {write? : Progress → StmtId → Option Progress}
  {top top' ids ids' cs : List StmtId}

/-- A stack with `top` on it writes to the statements `ids`, in this order, and goes on
with what was under `top`. -/
def Visits (below? : StmtId → Option (List StmtId)) (top ids : List StmtId) : Prop :=
  ∀ write? rounds stack p, sweep? write? below? (ids.length + rounds) (top ++ stack) p =
    ids.foldlM write? p >>= sweep? write? below? rounds stack

theorem visits_nil (below? : StmtId → Option (List StmtId)) : Visits below? [] [] := by
  intro write? rounds stack p
  simp

theorem Visits.append (h : Visits below? top ids) (h' : Visits below? top' ids') :
    Visits below? (top ++ top') (ids ++ ids') := by
  intro write? rounds stack p
  rw [List.length_append, Nat.add_assoc, List.append_assoc, h,
    List.foldlM_append, bind_assoc]
  exact bind_congr fun q => h' write? rounds stack q

/-- A statement is written to before what it gives way to. -/
theorem Visits.cons (hcs : below? id = some cs) (h : Visits below? cs.reverse ids) :
    Visits below? [id] (id :: ids) := by
  intro write? rounds stack p
  have hlength : (id :: ids).length + rounds = (ids.length + rounds) + 1 := by
    rw [List.length_cons]
    omega
  rw [hlength, List.singleton_append, List.foldlM_cons, bind_assoc, sweep?]
  refine bind_congr fun q => ?_
  simp only [hcs, Option.bind_eq_bind, Option.bind_some]
  exact h write? rounds stack q

theorem Visits.sweep?_eq (h : Visits below? [id] ids) (hrounds : ids.length ≤ rounds) :
    sweep? write? below? rounds [id] p = ids.foldlM write? p := by
  obtain ⟨more, rfl⟩ := Nat.exists_eq_add_of_le hrounds
  have hsweep := h write? more [] p
  rw [List.append_nil] at hsweep
  rw [hsweep]
  cases ids.foldlM write? p with
  | none => rfl
  | some q => simp [sweep?]

/-! ## The statements that a stack comes to -/

/-- Statements on a stack are gone through one after the other.  If their subtrees have
nothing in common, then nothing is written to twice. -/
private theorem exists_visits_all {R : StmtId → StmtId → Prop}
    (hR : ∀ {id j}, R id j → t.Under id j) :
    ∀ {top : List StmtId}, top.Pairwise t.Apart →
      (∀ c ∈ top, ∃ ids, Visits below? [c] ids ∧ ids.Nodup ∧ ∀ j, j ∈ ids ↔ R c j) →
      ∃ ids, Visits below? top ids ∧ ids.Nodup ∧ ∀ j, j ∈ ids ↔ ∃ c ∈ top, R c j := by
  intro top
  induction top with
  | nil =>
      intro _ _
      exact ⟨[], visits_nil below?, .nil, by simp⟩
  | cons c top ih =>
      intro hapart hvisit
      obtain ⟨hc, htop⟩ := List.pairwise_cons.mp hapart
      obtain ⟨ids, hids, hnodup, hmem⟩ := hvisit c (by simp)
      obtain ⟨rest, hrest, hnodup', hmem'⟩ := ih htop fun d hd => hvisit d (by simp [hd])
      refine ⟨ids ++ rest, hids.append hrest, ?_, fun j => ?_⟩
      · refine List.nodup_append.mpr ⟨hnodup, hnodup', ?_⟩
        rintro j hj _ hj' rfl
        obtain ⟨d, hd, hdj⟩ := (hmem' j).mp hj'
        exact hc d hd j (hR ((hmem j).mp hj)) (hR hdj)
      · simp [hmem, hmem']

/--
From a statement of a proper tree a stack goes through the statements that `R` leads to,
once.  `R` is what comes of going on with some of the children, as `below?` has them.
-/
theorem exists_visits {R : StmtId → StmtId → Prop} (ht : t.Proper root)
    (hR : ∀ {id j}, R id j → t.Under id j)
    (hbelow : ∀ {id s cs}, t.Fork id s cs → ∃ cs', below? id = some cs' ∧ cs'.Sublist cs ∧
      ∀ j, R id j ↔ j = id ∨ ∃ c ∈ cs', R c j) :
    ∀ {bound : Nat} {id : StmtId}, id < bound → t.Under root id →
      ∃ ids, Visits below? [id] ids ∧ ids.Nodup ∧ ∀ j, j ∈ ids ↔ R id j := by
  intro bound
  induction bound with
  | zero =>
      intro id hlt
      cases hlt
  | succ bound ih =>
      intro id hlt hid
      obtain ⟨s, cs, hf⟩ := ht.fork id hid
      obtain ⟨cs', hcs', hsub, hiff⟩ := hbelow hf
      have hapart : cs'.reverse.Pairwise t.Apart :=
        List.pairwise_reverse.mpr ((hf.apart.sublist hsub).imp Tree.Apart.symm)
      obtain ⟨ids, hids, hnodup, hmem⟩ := exists_visits_all hR hapart fun c hc => by
        have hc := hsub.mem (List.mem_reverse.mp hc)
        exact ih (Nat.lt_of_lt_of_le (hf.below c hc) (Nat.le_of_lt_succ hlt))
          (hid.trans (.of_child hf.children? hc))
      simp only [List.mem_reverse] at hmem
      refine ⟨id :: ids, .cons hcs' hids, List.nodup_cons.mpr ⟨?_, hnodup⟩, fun j => ?_⟩
      · intro hmem'
        obtain ⟨c, hc, hcid⟩ := (hmem id).mp hmem'
        exact ht.not_under_child hid hf (hsub.mem hc) (hR hcid)
      · rw [List.mem_cons, hmem, hiff]

/-- A stack comes to no more statements than there are. -/
theorem length_le_of_nodup (ht : t.Proper root) (hid : t.Under root id)
    (hnodup : ids.Nodup) (hmem : ∀ j ∈ ids, t.Under id j) : ids.length ≤ t.stmts.size :=
  Tree.Seen.length_le ⟨hnodup, fun j hj => ht.lt_size (hid.trans (hmem j hj))⟩

theorem exists_visits_under (ht : t.Proper root) (hid : t.Under root id) :
    ∃ ids, Visits t.children? [id] ids ∧ ids.length ≤ t.stmts.size ∧
      ∀ j, j ∈ ids ↔ t.Under id j := by
  have hbelow : ∀ {id s cs}, t.Fork id s cs → ∃ cs', t.children? id = some cs' ∧
      cs'.Sublist cs ∧ ∀ j, t.Under id j ↔ j = id ∨ ∃ c ∈ cs', t.Under c j :=
    fun hf => ⟨_, hf.children?, .refl _, fun j => Tree.under_iff hf.children?⟩
  obtain ⟨ids, hids, hnodup, hmem⟩ := exists_visits ht (fun h => h) hbelow
    (Nat.lt_succ_self id) hid
  exact ⟨ids, hids, length_le_of_nodup ht hid hnodup fun j hj => (hmem j).mp hj, hmem⟩

theorem exists_visits_spine (ht : t.Proper root) (hid : t.Under root id) :
    ∃ ids, Visits t.listed? [id] ids ∧ ids.length ≤ t.stmts.size ∧
      ∀ j, j ∈ ids ↔ t.Spine id j := by
  have hbelow : ∀ {id s cs}, t.Fork id s cs → ∃ cs', t.listed? id = some cs' ∧
      cs'.Sublist cs ∧ ∀ j, t.Spine id j ↔ j = id ∨ ∃ c ∈ cs', t.Spine c j := by
    intro id s cs hf
    unfold Tree.listed?
    rw [hf.stmt]
    cases hs : s with
    | sequence body =>
        subst hs
        have hcs : t.slice? body = some cs := hf.children
        exact ⟨cs, hcs, .refl cs, fun j => Tree.spine_iff_of_sequence hf.stmt hcs⟩
    | assign | conditional | «while» | forEach | wait | leaveLoop | print | skip | act =>
        refine ⟨[], rfl, List.nil_sublist _, fun j => ?_⟩
        rw [Tree.spine_iff_of_not_sequence hf.stmt (by simp [hs])]
        simp
  obtain ⟨ids, hids, hnodup, hmem⟩ := exists_visits ht Tree.Spine.under hbelow
    (Nat.lt_succ_self id) hid
  exact ⟨ids, hids, length_le_of_nodup ht hid hnodup fun j hj =>
    ((hmem j).mp hj).under, hmem⟩

/-! ## One table for each outcome -/

/-- A table is its entries. -/
theorem eq_of_node (hsize : q.nodes.size = p.nodes.size) (h : ∀ j, q.node j = p.node j) :
    q = p := by
  obtain ⟨nodes⟩ := p
  obtain ⟨nodes'⟩ := q
  refine congrArg Progress.mk (Array.ext hsize fun j hj hj' => ?_)
  have hnode := h j
  simpa [node, hj, hj'] using hnode

theorem Cleared.unique (h : Cleared t id p q) (h' : Cleared t id p' q')
    (hoff : AgreeOff t id p p') (hsize : q'.nodes.size = q.nodes.size) : q' = q := by
  refine eq_of_node hsize fun j => ?_
  by_cases hj : t.Under id j
  · rw [h.under j hj, h'.under j hj]
  · rw [h.other j hj, h'.other j hj, hoff j hj]

theorem Readied.node_eq (h : Readied t id p q) (h' : Readied t id p' q') {j : StmtId}
    (hj : t.Under id j) : q'.node j = q.node j := by
  by_cases hspine : t.Spine id j
  · rw [h.spine j hspine, h'.spine j hspine]
  · rw [h.under j hj hspine, h'.under j hj hspine]

theorem Readied.unique (h : Readied t id p q) (h' : Readied t id p' q')
    (hoff : AgreeOff t id p p') (hsize : q'.nodes.size = q.nodes.size) : q' = q := by
  refine eq_of_node hsize fun j => ?_
  by_cases hj : t.Under id j
  · exact h.node_eq h' hj
  · rw [h.other j hj, h'.other j hj, hoff j hj]

/-! ## The loops make the same tables -/

theorem disarmBy?_eq (ht : t.Proper root) (hid : t.Under root id)
    (hsize : p.nodes.size = t.stmts.size) (hrounds : t.stmts.size ≤ rounds) :
    p.disarmBy? t rounds id = p.disarm? t id := by
  obtain ⟨ids, hvisits, hlength, hmem⟩ := exists_visits_under ht hid
  have hlt : ∀ j ∈ ids, j < p.nodes.size := by
    intro j hj
    rw [hsize]
    exact ht.lt_size (hid.trans ((hmem j).mp hj))
  obtain ⟨q, hq⟩ := exists_disarm? ht hid hsize
  obtain ⟨q', hq'⟩ := exists_foldlM size_finish? finish?_of_lt hlt
  have hsame : q' = q := by
    refine (cleared_of_disarm? hq).unique (cleared_of_foldlM hmem hq') (fun j _ => rfl) ?_
    rw [size_foldlM size_finish? hq', size_disarm? hq]
  unfold disarmBy?
  rw [hvisits.sweep?_eq (Nat.le_trans hlength hrounds), hq', hsame, hq]

theorem armBy?_eq (ht : t.Proper root) (hid : t.Under root id)
    (hsize : p.nodes.size = t.stmts.size) (hrounds : t.stmts.size ≤ rounds) :
    p.armBy? t rounds id = p.arm? t id := by
  obtain ⟨ids, hvisits, hlength, hmem⟩ := exists_visits_spine ht hid
  obtain ⟨p₁, hp₁⟩ := exists_disarm? ht hid hsize
  have hlt : ∀ j ∈ ids, j < p₁.nodes.size := by
    intro j hj
    rw [size_disarm? hp₁, hsize]
    exact ht.lt_size (hid.trans ((hmem j).mp hj).under)
  obtain ⟨q, hq⟩ := exists_arm? ht hid hsize
  obtain ⟨q', hq'⟩ := exists_foldlM size_mark? mark?_of_lt hlt
  have hsame : q' = q := by
    refine (readied_of_arm? hq).unique
      (readied_of_foldlM (cleared_of_disarm? hp₁) hmem hq')
      (fun j _ => rfl) ?_
    rw [size_foldlM size_mark? hq', size_disarm? hp₁, size_arm? hq]
  unfold armBy?
  rw [disarmBy?_eq ht hid hsize hrounds, hp₁]
  show sweep? mark? t.listed? rounds [id] p₁ = p.arm? t id
  rw [hvisits.sweep?_eq (Nat.le_trans hlength hrounds), hq', hsame, hq]

/-! ## What was there before makes no difference -/

theorem disarm?_of_agreeOff (ht : t.Proper root) (hid : t.Under root id)
    (hsize : p.nodes.size = t.stmts.size) (hq : p.disarm? t id = some q)
    (hsize' : p'.nodes.size = p.nodes.size) (hoff : AgreeOff t id p p') :
    p'.disarm? t id = some q := by
  obtain ⟨q', hq'⟩ := exists_disarm? ht hid (hsize'.trans hsize)
  have hsame : q' = q := by
    refine (cleared_of_disarm? hq).unique (cleared_of_disarm? hq') hoff ?_
    rw [size_disarm? hq', size_disarm? hq, hsize']
  rw [hq', hsame]

theorem arm?_of_agreeOff (ht : t.Proper root) (hid : t.Under root id)
    (hsize : p.nodes.size = t.stmts.size) (hq : p.arm? t id = some q)
    (hsize' : p'.nodes.size = p.nodes.size) (hoff : AgreeOff t id p p') :
    p'.arm? t id = some q := by
  obtain ⟨q', hq'⟩ := exists_arm? ht hid (hsize'.trans hsize)
  have hsame : q' = q := by
    refine (readied_of_arm? hq).unique (readied_of_arm? hq') hoff ?_
    rw [size_arm? hq', size_arm? hq, hsize']
  rw [hq', hsame]

theorem size_run {W : Type} [World W] {c c' : Config W} {ms : List (Transition W)}
    (h : Run t c ms c') :
    c'.memory.progress.nodes.size = c.memory.progress.nodes.size :=
  (h.keeps (P := fun d => d.memory.progress.nodes.size = c.memory.progress.nodes.size) rfl
    fun _ _ hsize hstep => hstep.size_eq.trans hsize).1

/--
**A statement is reset together with its subtree, and nothing else is.**  For every
statement of a valid tree and every table with an entry for each statement, marking as
done leaves the subtree at rest, and making ready leaves it with nothing to remember and
armed exactly as far as sequences reach; all other entries stay.  Worked off a stack, both
come to an end after no more rounds than there are statements.  Neither depends on what
the subtree held before, so a second time changes nothing, and after any part of a run the
subtree is made ready as it would be in a new table.
-/
theorem arm_resets_subtree {t : Tree} {root id : StmtId} {p : Progress}
    (hvalid : t.validate = .ok root) (hid : t.Under root id)
    (hsize : p.nodes.size = t.stmts.size) :
    ∃ q r fresh, p.disarm? t id = some q ∧ p.arm? t id = some r ∧
      (idle t.stmts.size).arm? t id = some fresh ∧
      q.nodes.size = p.nodes.size ∧ Cleared t id p q ∧
      r.nodes.size = p.nodes.size ∧ Readied t id p r ∧
      (∀ rounds ≥ t.stmts.size,
        p.disarmBy? t rounds id = some q ∧ p.armBy? t rounds id = some r) ∧
      (∀ p', p'.nodes.size = p.nodes.size → AgreeOff t id p p' →
        p'.disarm? t id = some q ∧ p'.arm? t id = some r) ∧
      q.disarm? t id = some q ∧ r.arm? t id = some r ∧
      ∀ (W : Type) [World W] (c c' : Config W) (ms : List (Transition W)),
        c.memory.progress = p → Run t c ms c' →
          ∃ r', c'.memory.progress.arm? t id = some r' ∧
            ∀ j, t.Under id j → r'.node j = fresh.node j := by
  have ht := Tree.proper_of_validate hvalid
  obtain ⟨q, hq⟩ := exists_disarm? ht hid hsize
  obtain ⟨r, hr⟩ := exists_arm? ht hid hsize
  obtain ⟨fresh, hfresh⟩ :=
    exists_arm? (p := idle t.stmts.size) ht hid Array.size_replicate
  have hcleared := cleared_of_disarm? hq
  have hreadied := readied_of_arm? hr
  refine ⟨q, r, fresh, hq, hr, hfresh, size_disarm? hq, hcleared, size_arm? hr,
    hreadied, ?_, ?_,
    disarm?_of_agreeOff ht hid hsize hq (size_disarm? hq) hcleared.other,
    arm?_of_agreeOff ht hid hsize hr (size_arm? hr) hreadied.other, ?_⟩
  · intro rounds hrounds
    rw [disarmBy?_eq ht hid hsize hrounds, armBy?_eq ht hid hsize hrounds]
    exact ⟨hq, hr⟩
  · intro p' hsize' hoff
    exact ⟨disarm?_of_agreeOff ht hid hsize hq hsize' hoff,
      arm?_of_agreeOff ht hid hsize hr hsize' hoff⟩
  · rintro W _ c c' ms rfl hrun
    obtain ⟨r', hr'⟩ := exists_arm? ht hid ((size_run hrun).trans hsize)
    exact ⟨r', hr', fun j hj => (readied_of_arm? hfresh).node_eq (readied_of_arm? hr') hj⟩

/-- `Program.restless` in the middle of a round, of which the `wait` is still going on. -/
def halfway : Progress :=
  ⟨#[{ armed := true, frame := .wait .one },
    { armed := true, frame := .branch (some 0) }, {}, { armed := true },
    { armed := true, frame := .while .continuing }]⟩

/-- The sequence is made ready with its two statements; what is under the conditional is
put to rest, and the loop around it goes on. -/
theorem arm_resets_subtree_restless :
    ∃ r, Program.restless.validate = .ok 4 ∧ Program.restless.Under 4 3 ∧
      halfway.arm? Program.restless 3 = some r ∧
      r = ⟨#[{}, { armed := true }, { armed := true }, { armed := true },
        { armed := true, frame := .while .continuing }]⟩ ∧
      Readied Program.restless 3 halfway r ∧
      halfway.armBy? Program.restless 5 3 = some r ∧
      r.arm? Program.restless 3 = some r := by
  have hvalid : Program.restless.validate = .ok 4 := rfl
  have hid : Program.restless.Under 4 3 := .of_child rfl (List.mem_singleton_self 3)
  obtain ⟨q, r, fresh, -, hr, -, -, -, -, hreadied, hloops, -, -, hagain, -⟩ :=
    arm_resets_subtree hvalid hid
      (show halfway.nodes.size = Program.restless.stmts.size from rfl)
  have harm : halfway.arm? Program.restless 3 =
    some ⟨#[{}, { armed := true }, { armed := true },
      { armed := true }, { armed := true, frame := .while .continuing }]⟩ := by decide
  exact ⟨r, hvalid, hid, hr, Option.some.inj (hr.symm.trans harm), hreadied,
    (hloops 5 (Nat.le_refl 5)).2, hagain⟩

end Progress

end ActorScript
