import ActorScript.Tree.Validity

/-!
# The shape of valid trees

Statements refer to each other by position, so "the statements under a
statement" is a relation, `Tree.Under`, and nothing in the tables makes it a
tree.  Validation does.  This module says what a valid tree is in terms of
`Under`, and derives it from the one walk that `Tree.validate` makes.

## Main results

* `mem_subtree?_iff`, `mem_spine?_iff` — the two lists that the run takes from
  a tree hold the statements under a statement, and those reached from it
  through sequences alone.
* `proper_of_validate` — in a valid tree every statement under the root has its
  children before it, the subtrees of two children have nothing in common, and
  every `leaveLoop` has a loop around it.
* `grounded_of_validate`, `nodup_of_validate` — its expressions have their operands
  before them, and no name is declared twice.
-/

namespace ActorScript.Tree

/-- `t.Under id j`: the statement `j` is `id` itself or stands under it. -/
inductive Under (t : Tree) : StmtId → StmtId → Prop
  | refl (id : StmtId) : Under t id id
  | child {id c j : StmtId} {cs : List StmtId} (hcs : t.children? id = some cs)
      (hc : c ∈ cs) (h : Under t c j) : Under t id j

/-- `t.Spine id j`: `j` is reached from `id` through sequences alone. -/
inductive Spine (t : Tree) : StmtId → StmtId → Prop
  | refl (id : StmtId) : Spine t id id
  | child {id c j : StmtId} {body : Slice} {cs : List StmtId}
      (hs : t.stmt? id = some (.sequence body)) (hcs : t.slice? body = some cs)
      (hc : c ∈ cs) (h : Spine t c j) : Spine t id j

/-- The subtrees of two statements have nothing in common. -/
def Apart (t : Tree) (a b : StmtId) : Prop := ∀ j, t.Under a j → ¬ t.Under b j

/-- A `leaveLoop` stands under the statement with no loop around it that would
itself stand there. -/
inductive Exposed (t : Tree) : StmtId → Prop
  | here {id : StmtId} (hs : t.stmt? id = some .leaveLoop) : Exposed t id
  | child {id c : StmtId} {s : Stmt} {cs : List StmtId} (hs : t.stmt? id = some s)
      (hl : s.isLoop = false) (hcs : t.childrenOf? s = some cs) (hc : c ∈ cs)
      (h : Exposed t c) : Exposed t id

/-- What validation establishes at one statement. -/
structure Fork (t : Tree) (id : StmtId) (s : Stmt) (cs : List StmtId) : Prop where
  stmt : t.stmt? id = some s
  children : t.childrenOf? s = some cs
  below : ∀ c ∈ cs, c < id
  apart : cs.Pairwise t.Apart
  operands : ∀ e ∈ s.operands, e < t.exprs.size

/-- The statements under `root` form a tree in which every `leaveLoop` has a
loop around it. -/
structure Proper (t : Tree) (root : StmtId) : Prop where
  fork : ∀ id, t.Under root id → ∃ s cs, t.Fork id s cs
  enclosed : ¬ t.Exposed root

/-! ## Reaching statements -/

theorem children?_eq {t : Tree} {id : StmtId} {s : Stmt} (hs : t.stmt? id = some s) :
    t.children? id = t.childrenOf? s := by
  simp [children?, hs]

theorem Under.trans {t : Tree} {a b c : StmtId} (h : t.Under a b)
    (h' : t.Under b c) : t.Under a c := by
  induction h with
  | refl => exact h'
  | child hcs hc _ ih => exact .child hcs hc (ih h')

/-- A child stands under its parent. -/
theorem Under.of_child {t : Tree} {id c : StmtId} {cs : List StmtId}
    (hcs : t.children? id = some cs) (hc : c ∈ cs) : t.Under id c :=
  .child hcs hc (.refl c)

theorem under_iff {t : Tree} {id j : StmtId} {cs : List StmtId}
    (hcs : t.children? id = some cs) :
    t.Under id j ↔ j = id ∨ ∃ c ∈ cs, t.Under c j := by
  constructor
  · intro h
    cases h with
    | refl => exact .inl rfl
    | child hcs' hc h =>
        rw [hcs] at hcs'
        cases hcs'
        exact .inr ⟨_, hc, h⟩
  · rintro (rfl | ⟨c, hc, h⟩)
    · exact .refl _
    · exact .child hcs hc h

theorem Spine.under {t : Tree} {id j : StmtId} (h : t.Spine id j) :
    t.Under id j := by
  induction h with
  | refl id => exact .refl id
  | child hs hcs hc _ ih =>
      exact .child ((children?_eq hs).trans hcs) hc ih

theorem spine_iff_of_sequence {t : Tree} {id j : StmtId} {body : Slice}
    {cs : List StmtId} (hs : t.stmt? id = some (.sequence body))
    (hcs : t.slice? body = some cs) :
    t.Spine id j ↔ j = id ∨ ∃ c ∈ cs, t.Spine c j := by
  constructor
  · intro h
    cases h with
    | refl => exact .inl rfl
    | child hs' hcs' hc h =>
        rw [hs] at hs'
        cases hs'
        rw [hcs] at hcs'
        cases hcs'
        exact .inr ⟨_, hc, h⟩
  · rintro (rfl | ⟨c, hc, h⟩)
    · exact .refl _
    · exact .child hs hcs hc h

/-- The spine of a statement that is no sequence is the statement. -/
theorem spine_iff_of_not_sequence {t : Tree} {id j : StmtId} {s : Stmt}
    (hs : t.stmt? id = some s) (hne : ∀ body, s ≠ .sequence body) :
    t.Spine id j ↔ j = id := by
  constructor
  · intro h
    cases h with
    | refl => rfl
    | child hs' =>
        rw [hs] at hs'
        cases hs'
        exact absurd rfl (hne _)
  · rintro rfl
    exact .refl _

/-! ## The lists of `subtree?` and `spine?` -/

/-- What the lists hold that a partial function makes of the members of a list. -/
private theorem mem_flatten_of_mapM {f : StmtId → Option (List StmtId)}
    {ids : List StmtId} {below : List (List StmtId)}
    (h : ids.mapM f = some below) (j : StmtId) :
    j ∈ below.flatten ↔ ∃ c ∈ ids, ∃ l, f c = some l ∧ j ∈ l := by
  induction ids generalizing below with
  | nil =>
      simp only [List.mapM_nil, Option.pure_def, Option.some.injEq] at h
      subst h
      simp
  | cons c ids ih =>
      simp only [List.mapM_cons, Option.pure_def, Option.bind_eq_bind,
        Option.bind_eq_some_iff, Option.some.injEq] at h
      obtain ⟨l, hl, rest, hrest, rfl⟩ := h
      simp only [List.flatten_cons, List.mem_append, ih hrest, List.mem_cons]
      constructor
      · rintro (hj | ⟨d, hd, l', hl', hj⟩)
        · exact ⟨c, .inl rfl, l, hl, hj⟩
        · exact ⟨d, .inr hd, l', hl', hj⟩
      · rintro ⟨d, rfl | hd, l', hl', hj⟩
        · rw [hl] at hl'
          cases hl'
          exact .inl hj
        · exact .inr ⟨d, hd, l', hl', hj⟩

/-- Every member of a list has a value if a partial function maps the list. -/
private theorem isSome_of_mapM {f : StmtId → Option (List StmtId)}
    {ids : List StmtId} {below : List (List StmtId)}
    (h : ids.mapM f = some below) {c : StmtId} (hc : c ∈ ids) :
    ∃ l, f c = some l := by
  induction ids generalizing below with
  | nil => cases hc
  | cons d ids ih =>
      simp only [List.mapM_cons, Option.pure_def, Option.bind_eq_bind,
        Option.bind_eq_some_iff, Option.some.injEq] at h
      obtain ⟨l, hl, rest, hrest, rfl⟩ := h
      rcases List.mem_cons.mp hc with rfl | hc
      · exact ⟨l, hl⟩
      · exact ih hrest hc

private theorem mem_subtreeWithin?_iff {t : Tree} :
    ∀ {depth : Nat} {id : StmtId} {ids : List StmtId},
      t.subtreeWithin? depth id = some ids → ∀ j, j ∈ ids ↔ t.Under id j := by
  intro depth
  induction depth with
  | zero =>
      intro id ids h
      simp [subtreeWithin?] at h
  | succ depth ih =>
      intro id ids h j
      simp only [subtreeWithin?, Option.pure_def, Option.bind_eq_bind,
        Option.bind_eq_some_iff, Option.some.injEq] at h
      obtain ⟨cs, hcs, below, hbelow, rfl⟩ := h
      rw [List.mem_cons, mem_flatten_of_mapM hbelow, under_iff hcs]
      refine or_congr_right ⟨?_, ?_⟩
      · rintro ⟨c, hc, l, hl, hj⟩
        exact ⟨c, hc, (ih hl j).mp hj⟩
      · rintro ⟨c, hc, hj⟩
        obtain ⟨l, hl⟩ := isSome_of_mapM hbelow hc
        exact ⟨c, hc, l, hl, (ih hl j).mpr hj⟩

/-- `subtree?` lists the statements under a statement. -/
theorem mem_subtree?_iff {t : Tree} {id : StmtId} {ids : List StmtId}
    (h : t.subtree? id = some ids) (j : StmtId) : j ∈ ids ↔ t.Under id j :=
  mem_subtreeWithin?_iff h j

private theorem mem_spineWithin?_iff {t : Tree} :
    ∀ {depth : Nat} {id : StmtId} {ids : List StmtId},
      t.spineWithin? depth id = some ids → ∀ j, j ∈ ids ↔ t.Spine id j := by
  intro depth
  induction depth with
  | zero =>
      intro id ids h
      simp [spineWithin?] at h
  | succ depth ih =>
      intro id ids h j
      simp only [spineWithin?, Option.bind_eq_bind, Option.bind_eq_some_iff] at h
      obtain ⟨s, hs, h⟩ := h
      split at h
      · simp only [Option.pure_def, Option.bind_eq_some_iff, Option.some.injEq] at h
        obtain ⟨cs, hcs, below, hbelow, rfl⟩ := h
        rw [List.mem_cons, mem_flatten_of_mapM hbelow, spine_iff_of_sequence hs hcs]
        refine or_congr_right ⟨?_, ?_⟩
        · rintro ⟨c, hc, l, hl, hj⟩
          exact ⟨c, hc, (ih hl j).mp hj⟩
        · rintro ⟨c, hc, hj⟩
          obtain ⟨l, hl⟩ := isSome_of_mapM hbelow hc
          exact ⟨c, hc, l, hl, (ih hl j).mpr hj⟩
      · rename_i hne
        simp only [Option.pure_def, Option.some.injEq] at h
        subst h
        rw [List.mem_singleton]
        exact (spine_iff_of_not_sequence hs fun body hbody => hne body hbody).symm

/-- `spine?` lists what is reached from a statement through sequences alone. -/
theorem mem_spine?_iff {t : Tree} {id : StmtId} {ids : List StmtId}
    (h : t.spine? id = some ids) (j : StmtId) : j ∈ ids ↔ t.Spine id j :=
  mem_spineWithin?_iff h j

/-! ## Proper trees -/

section Proper

variable {t : Tree} {root id : StmtId} {s : Stmt} {cs : List StmtId}

theorem Fork.children? (hf : t.Fork id s cs) : t.children? id = some cs :=
  (children?_eq hf.stmt).trans hf.children

/-- The children that validation saw are the ones that the tree gives. -/
theorem Proper.fork_eq (ht : t.Proper root) (hid : t.Under root id)
    (hs : t.stmt? id = some s) (hcs : t.childrenOf? s = some cs) :
    t.Fork id s cs := by
  obtain ⟨s', cs', hf⟩ := ht.fork id hid
  have hs' := hf.stmt
  rw [hs] at hs'
  cases hs'
  have hcs' := hf.children
  rw [hcs] at hcs'
  cases hcs'
  exact hf

/-- What stands under a statement of a proper tree stands before it. -/
theorem Proper.le_of_under (ht : t.Proper root) {id j : StmtId}
    (hid : t.Under root id) (hj : t.Under id j) : j ≤ id := by
  induction hj with
  | refl => exact Nat.le_refl _
  | @child id c j cs hcs hc hj ih =>
      have hlt : c < id := by
        obtain ⟨s, cs', hf⟩ := ht.fork id hid
        rw [hf.children?] at hcs
        cases hcs
        exact hf.below c hc
      exact Nat.le_trans (ih (hid.trans (.of_child hcs hc))) (Nat.le_of_lt hlt)

theorem Proper.under_antisymm (ht : t.Proper root) {a b : StmtId} (ha : t.Under root a)
    (hab : t.Under a b) (hba : t.Under b a) : a = b :=
  Nat.le_antisymm (ht.le_of_under (ha.trans hab) hba) (ht.le_of_under ha hab)

/-- A statement does not stand under its own child. -/
theorem Proper.not_under_child (ht : t.Proper root) (hid : t.Under root id)
    (hf : t.Fork id s cs) {c : StmtId} (hc : c ∈ cs) : ¬ t.Under c id := by
  intro h
  have hle := ht.le_of_under (hid.trans (.of_child hf.children? hc)) h
  exact absurd (hf.below c hc) (Nat.not_lt.mpr hle)

/-- A child is apart from the children before it. -/
theorem Fork.apart_before {past later : List StmtId} {c d : StmtId}
    (hf : t.Fork id s (past ++ c :: later)) (hd : d ∈ past) : t.Apart d c :=
  (List.pairwise_append.mp hf.apart).2.2 d hd c (by simp)

/-- A child is apart from the children after it. -/
theorem Fork.apart_after {past later : List StmtId} {c d : StmtId}
    (hf : t.Fork id s (past ++ c :: later)) (hd : d ∈ later) : t.Apart c d :=
  List.rel_of_pairwise_cons (List.pairwise_append.mp hf.apart).2.1 hd

theorem Apart.symm {a b : StmtId} (h : t.Apart a b) : t.Apart b a :=
  fun j hb ha => h j ha hb

theorem Fork.apart_of_ne (hf : t.Fork id s cs) {c d : StmtId} (hc : c ∈ cs)
    (hd : d ∈ cs) (hne : d ≠ c) : t.Apart c d := by
  obtain ⟨past, later, rfl⟩ := List.append_of_mem hc
  rcases List.mem_append.mp hd with hd | hd
  · exact (hf.apart_before hd).symm
  · rcases List.mem_cons.mp hd with rfl | hd
    · exact absurd rfl hne
    · exact hf.apart_after hd

end Proper

/-! ## What the walk of `validate` establishes -/

/-- The outcome of a walk over the subtrees of `ids`: they are what it adds to
the statements visited, each of them once. -/
structure Walked (t : Tree) (inLoop : Bool) (ids visited visited' : List StmtId) :
    Prop where
  mem : ∀ j, j ∈ visited' ↔ j ∈ visited ∨ ∃ c ∈ ids, t.Under c j
  new : ∀ c ∈ ids, ∀ j, t.Under c j → j ∉ visited
  apart : ids.Pairwise t.Apart
  fork : ∀ c ∈ ids, ∀ j, t.Under c j → ∃ s cs, t.Fork j s cs
  enclosed : inLoop = false → ∀ c ∈ ids, ¬ t.Exposed c

private theorem Walked.cons {t : Tree} {inLoop : Bool} {c : StmtId}
    {ids visited visited₁ visited' : List StmtId}
    (h : t.Walked inLoop [c] visited visited₁)
    (hs : t.Walked inLoop ids visited₁ visited') :
    t.Walked inLoop (c :: ids) visited visited' where
  mem j := by
    rw [hs.mem, h.mem]
    simp [or_assoc]
  new d hd j hj hv := by
    rcases List.mem_cons.mp hd with rfl | hd
    · exact h.new d (by simp) j hj hv
    · exact hs.new d hd j hj ((h.mem j).mpr (.inl hv))
  apart := by
    refine List.pairwise_cons.mpr ⟨fun d hd j hc hj => ?_, hs.apart⟩
    exact hs.new d hd j hj ((h.mem j).mpr (.inr ⟨c, by simp, hc⟩))
  fork d hd := by
    rcases List.mem_cons.mp hd with rfl | hd
    · exact h.fork d (by simp)
    · exact hs.fork d hd
  enclosed hl d hd := by
    rcases List.mem_cons.mp hd with rfl | hd
    · exact h.enclosed hl d (by simp)
    · exact hs.enclosed hl d hd

/-- Walks one after the other make one walk. -/
private theorem walked_of_foldlM {t : Tree} {inLoop : Bool}
    {f : List StmtId → StmtId → Except TreeError (List StmtId)}
    (hf : ∀ visited c visited', f visited c = .ok visited' →
      t.Walked inLoop [c] visited visited') :
    ∀ {ids visited visited' : List StmtId},
      ids.foldlM f visited = .ok visited' → t.Walked inLoop ids visited visited' := by
  intro ids
  induction ids with
  | nil =>
      intro visited visited' h
      simp only [List.foldlM_nil, pure, Except.pure, Except.ok.injEq] at h
      subst h
      exact
        { mem := by simp
          new := by simp
          apart := .nil
          fork := by simp
          enclosed := by simp }
  | cons c ids ih =>
      intro visited visited' h
      simp only [List.foldlM_cons, bind, Except.bind] at h
      split at h
      · cases h
      · rename_i visited₁ hc
        exact (hf _ _ _ hc).cons (ih h)

/-- A check of every member of a list succeeds if it succeeds at each. -/
theorem forM_eq_ok_iff {α : Type} {f : α → Except TreeError Unit} {ids : List α} :
    ids.forM f = .ok () ↔ ∀ c ∈ ids, f c = .ok () := by
  induction ids with
  | nil => simp [pure, Except.pure]
  | cons d ids ih =>
      rw [List.forM_eq_forM] at ih
      simp only [List.forM_eq_forM, List.forM_cons, bind, Except.bind,
        List.forall_mem_cons, ← ih]
      cases hd : f d with
      | error e => simp
      | ok u => simp

theorem checkChild_eq_ok_iff {t : Tree} {parent child : StmtId} :
    t.checkChild parent child = .ok () ↔ child < t.stmts.size ∧ child < parent := by
  unfold checkChild
  split
  · exact iff_of_false (by simp) fun h => Nat.not_lt.mpr ‹_› h.1
  · split
    · exact iff_of_false (by simp) fun h => Nat.not_lt.mpr ‹_› h.2
    · exact iff_of_true rfl ⟨Nat.not_le.mp ‹_›, Nat.not_le.mp ‹_›⟩

/-- What the check of a statement looks at. -/
theorem checkStmt_eq_ok_iff {t : Tree} {inLoop : Bool} {id : StmtId} {s : Stmt} :
    t.checkStmt inLoop id s = .ok () ↔
      (∃ cs, t.childrenOf? s = some cs) ∧ (s = .leaveLoop → inLoop = true) ∧
        ∀ e ∈ s.operands, e < t.exprs.size := by
  have hop : (s.operands.forM fun e =>
      if t.exprs.size ≤ e then Except.error (TreeError.missingExpr e) else .ok ()) =
        .ok () ↔
      ∀ e ∈ s.operands, e < t.exprs.size := by
    rw [forM_eq_ok_iff]
    refine forall₂_congr fun e _ => ?_
    split
    · exact iff_of_false (by simp) (Nat.not_lt.mpr ‹_›)
    · exact iff_of_true rfl (Nat.not_le.mp ‹_›)
  cases s with
  | sequence body =>
      cases hb : t.slice? body with
      | none => simp [checkStmt, hb, bind, Except.bind, childrenOf?]
      | some cs => simp [checkStmt, hb, pure, Except.pure, childrenOf?, Stmt.operands]
  | leaveLoop =>
      cases inLoop with
      | false => simp [checkStmt, bind, Except.bind]
      | true => simp [checkStmt, pure, Except.pure, childrenOf?, Stmt.operands]
  | assign | conditional | «while» | forEach | wait | print | skip | act =>
      simpa [checkStmt, childrenOf?] using hop

theorem walked_of_walk {t : Tree} :
    ∀ {bound : Nat} {inLoop : Bool} {visited visited' : List StmtId} {id : StmtId},
      t.walk bound inLoop visited id = .ok visited' →
      t.Walked inLoop [id] visited visited' := by
  intro bound
  induction bound with
  | zero =>
      intro inLoop visited visited' id h
      simp [walk] at h
  | succ bound ih =>
      intro inLoop visited visited' id h
      simp only [walk, bind, Except.bind] at h
      split at h
      · cases h
      rename_i hnew
      split at h
      rotate_left
      · cases h
      rename_i s hs
      split at h
      · cases h
      rename_i hstmt
      split at h
      · cases h
      rename_i hchecked
      obtain ⟨⟨cs, hcs⟩, hleave, hoperands⟩ := checkStmt_eq_ok_iff.mp hstmt
      simp only [hcs, Option.getD_some] at h hchecked
      have hw := walked_of_foldlM (fun _ _ _ => ih) h
      have hchildren : t.children? id = some cs := (children?_eq hs).trans hcs
      have hfork : t.Fork id s cs :=
        { stmt := hs
          children := hcs
          below :=
            fun c hc => (checkChild_eq_ok_iff.mp (forM_eq_ok_iff.mp hchecked c hc)).2
          apart := (List.pairwise_reverse.mp hw.apart).imp Apart.symm
          operands := hoperands }
      refine
        { mem := fun j => ?_
          new := ?_
          apart := List.pairwise_singleton _ _
          fork := ?_
          enclosed := ?_ }
      · rw [hw.mem, List.mem_cons, or_assoc, or_left_comm]
        simp only [List.mem_reverse, List.mem_singleton, exists_eq_left,
          under_iff hchildren]
      · simp only [List.mem_singleton, forall_eq, under_iff hchildren]
        rintro j (rfl | ⟨c, hc, hj⟩) hv
        · exact hnew (List.contains_iff_mem.mpr hv)
        · exact hw.new c (List.mem_reverse.mpr hc) j hj (List.mem_cons_of_mem _ hv)
      · simp only [List.mem_singleton, forall_eq, under_iff hchildren]
        rintro j (rfl | ⟨c, hc, hj⟩)
        · exact ⟨s, cs, hfork⟩
        · exact hw.fork c (List.mem_reverse.mpr hc) j hj
      · simp only [List.mem_singleton, forall_eq]
        intro hout hexposed
        cases hexposed with
        | here hs' =>
            rw [hs] at hs'
            cases hs'
            simp [hleave rfl] at hout
        | child hs' hl hcs' hc hexposed =>
            rw [hs] at hs'
            cases hs'
            rw [hcs] at hcs'
            cases hcs'
            exact hw.enclosed (by simp [hout, hl]) _ (List.mem_reverse.mpr hc) hexposed

/-- A tree is valid if it has a root and all checks succeed. -/
theorem validate_eq_ok_iff {t : Tree} {root : StmtId} :
    t.validate = .ok root ↔ t.root = some root ∧
      t.checkGlobals [] (t.globals.toList.map Prod.fst) = .ok () ∧ t.checkExprs = .ok () ∧
      ∃ visited, t.walk t.stmts.size false [] root = .ok visited := by
  simp only [validate, bind, Except.bind, pure, Except.pure]
  constructor
  · intro h
    split at h
    rotate_left
    · cases h
    rename_i hroot
    split at h
    · cases h
    rename_i hglobals
    split at h
    · cases h
    rename_i hexprs
    split at h
    · cases h
    rename_i hwalk
    cases h
    exact ⟨hroot, hglobals, hexprs, _, hwalk⟩
  · rintro ⟨hroot, hglobals, hexprs, visited, hwalk⟩
    simp only [hroot, hglobals, hexprs, hwalk]

/-- **Valid trees are proper.**  The root that validation returns heads a tree
of statements. -/
theorem proper_of_validate {t : Tree} {root : StmtId} (h : t.validate = .ok root) :
    t.Proper root := by
  obtain ⟨-, -, -, visited, hwalk⟩ := validate_eq_ok_iff.mp h
  have hw := walked_of_walk hwalk
  exact
    { fork := hw.fork root (by simp)
      enclosed := hw.enclosed rfl root (by simp) }

/-! ## Expressions and declarations -/

/-- The operands of every expression stand before it. -/
def Grounded (t : Tree) : Prop := ∀ id e, t.expr? id = some e → ∀ o ∈ e.operands, o < id

theorem checkOperand_eq_ok_iff {t : Tree} {parent child : ExprId} :
    t.checkOperand parent child = .ok () ↔ child < t.exprs.size ∧ child < parent := by
  unfold checkOperand
  split
  · exact iff_of_false (by simp) fun h => Nat.not_lt.mpr ‹_› h.1
  · split
    · exact iff_of_false (by simp) fun h => Nat.not_lt.mpr ‹_› h.2
    · exact iff_of_true rfl ⟨Nat.not_le.mp ‹_›, Nat.not_le.mp ‹_›⟩

/-- What the check of all expressions looks at. -/
theorem checkExprs_eq_ok_iff {t : Tree} :
    t.checkExprs = .ok () ↔
      ∀ id e, t.expr? id = some e → ∀ o ∈ e.operands, o < t.exprs.size ∧ o < id := by
  have hmem (e : Expr) (id : ExprId) :
      (e, id) ∈ t.exprs.toList.zipIdx ↔ t.expr? id = some e := by
    rw [List.mem_zipIdx_iff_getElem?, Array.getElem?_toList, expr?]
  simp only [checkExprs, forM_eq_ok_iff, Prod.forall, hmem, checkOperand_eq_ok_iff]
  exact forall_comm

theorem grounded_of_validate {t : Tree} {root : StmtId} (h : t.validate = .ok root) :
    t.Grounded := by
  obtain ⟨-, -, hexprs, -⟩ := validate_eq_ok_iff.mp h
  intro id e he o ho
  exact (checkExprs_eq_ok_iff.mp hexprs id e he o ho).2

/-- What the check of the declarations looks at. -/
theorem checkGlobals_eq_ok_iff {t : Tree} {names seen : List Name} :
    t.checkGlobals seen names = .ok () ↔ names.Nodup ∧ ∀ name ∈ names, name ∉ seen := by
  induction names generalizing seen with
  | nil => simp [checkGlobals]
  | cons name names ih =>
      unfold checkGlobals
      split
      · rename_i hseen
        rw [List.contains_iff_mem] at hseen
        simp [hseen]
      · rename_i hnew
        rw [List.contains_iff_mem] at hnew
        simp only [ih, List.nodup_cons, List.mem_cons, not_or, forall_eq_or_imp]
        grind

/-- No name is declared twice. -/
theorem nodup_of_validate {t : Tree} {root : StmtId} (h : t.validate = .ok root) :
    (t.globals.toList.map Prod.fst).Nodup :=
  (checkGlobals_eq_ok_iff.mp (validate_eq_ok_iff.mp h).2.1).1

end ActorScript.Tree
