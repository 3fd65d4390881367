import ActorScript.Memory
import ActorScript.Proofs.TreeShape

/-!
# Reading the table of progress

Every operation on a `Progress` is a sequence of writes to single entries, any
of which fails outside the table.  This module replaces them by what they do to
the view `Progress.node`, one equation per operation, and later proofs use
nothing else.

`disarm?` and `arm?` write to the statements under a statement and to no other
(`Cleared`, `Readied`), whatever the table held there before.
-/

namespace ActorScript.Progress

/-- The entry of a statement; a statement outside the table has nothing to do. -/
def node (p : Progress) (id : StmtId) : Node := p.nodes[id]?.getD idleNode

theorem isArmed_eq (p : Progress) (id : StmtId) : p.isArmed id = (p.node id).armed := by
  unfold isArmed node
  cases p.nodes[id]? <;> rfl

theorem frame_eq (p : Progress) (id : StmtId) : p.frame id = (p.node id).frame := by
  unfold frame node
  cases p.nodes[id]? <;> rfl

@[simp] theorem node_idle (size : Nat) (id : StmtId) :
    (idle size).node id = idleNode := by
  unfold node idle
  rw [Array.getElem?_replicate]
  split <;> rfl

/-! ## Writes of single entries -/

section Writes

variable {p p' : Progress} {id : StmtId}

theorem node_setNode? {n : Node} (h : p.setNode? id n = some p') (j : StmtId) :
    p'.node j = if j = id then n else p.node j := by
  unfold setNode? at h
  split at h
  · rename_i hlt
    cases h
    unfold node
    simp only [Array.getElem?_setIfInBounds]
    by_cases hj : j = id
    · subst hj
      simp [hlt]
    · simp [hj, Ne.symm hj]
  · cases h

theorem node_setFrame? {f : Frame} (h : p.setFrame? id f = some p') (j : StmtId) :
    p'.node j = if j = id then { p.node id with frame := f } else p.node j := by
  unfold setFrame? at h
  simp only [Option.bind_eq_bind, Option.bind_eq_some_iff] at h
  obtain ⟨n, hn, h⟩ := h
  have hnode : p.node id = n := by simp [node, hn]
  rw [node_setNode? h, hnode]

theorem node_finish? (h : p.finish? id = some p') (j : StmtId) :
    p'.node j = if j = id then idleNode else p.node j :=
  node_setNode? h j

theorem node_mark? (h : p.mark? id = some p') (j : StmtId) :
    p'.node j = if j = id then { p.node id with armed := true } else p.node j := by
  unfold mark? at h
  simp only [Option.bind_eq_bind, Option.bind_eq_some_iff] at h
  obtain ⟨n, hn, h⟩ := h
  have hnode : p.node id = n := by simp [node, hn]
  rw [node_setNode? h, hnode]

/-- The last write of an entry counts. -/
theorem setNode?_setNode? {n : Node} (h : p.setNode? id n = some p') (n' : Node) :
    p'.setNode? id n' = p.setNode? id n' := by
  unfold setNode? at h ⊢
  split at h
  · rename_i hlt
    cases h
    simp [hlt]
  · cases h

theorem finish?_setFrame? {f : Frame} (h : p.setFrame? id f = some p') :
    p'.finish? id = p.finish? id := by
  unfold setFrame? at h
  simp only [Option.bind_eq_bind, Option.bind_eq_some_iff] at h
  obtain ⟨n, -, h⟩ := h
  exact setNode?_setNode? h idleNode

/-- A statement that has an entry has one for every write. -/
theorem exists_setNode? {n : Node} (h : p.setNode? id n = some p') (n' : Node) :
    ∃ q, p.setNode? id n' = some q := by
  unfold setNode? at *
  split at h
  · rename_i hlt
    exact ⟨_, if_pos hlt⟩
  · cases h

theorem exists_finish? {f : Frame} (h : p.setFrame? id f = some p') :
    ∃ q, p.finish? id = some q := by
  unfold setFrame? at h
  simp only [Option.bind_eq_bind, Option.bind_eq_some_iff] at h
  obtain ⟨n, -, h⟩ := h
  exact exists_setNode? h idleNode

theorem exists_setFrame? {f : Frame} (h : p.setFrame? id f = some p') (f' : Frame) :
    ∃ q, p.setFrame? id f' = some q := by
  unfold setFrame? at h ⊢
  simp only [Option.bind_eq_bind, Option.bind_eq_some_iff] at h
  obtain ⟨n, hn, h⟩ := h
  rw [hn]
  exact exists_setNode? h _

theorem setFrame?_setFrame? {f : Frame} (h : p.setFrame? id f = some p') (f' : Frame) :
    p'.setFrame? id f' = p.setFrame? id f' := by
  unfold setFrame? at h ⊢
  simp only [Option.bind_eq_bind, Option.bind_eq_some_iff] at h
  obtain ⟨n, hn, h⟩ := h
  have hn' : p'.nodes[id]? = some { n with frame := f } := by
    unfold setNode? at h
    split at h
    · rename_i hlt
      cases h
      simp [hlt]
    · cases h
  rw [hn, hn']
  exact setNode?_setNode? h _

end Writes

/-! ## Writes of whole subtrees -/

private theorem node_foldlM_finish? :
    ∀ {ids : List StmtId} {p p' : Progress}, ids.foldlM finish? p = some p' →
      ∀ j, p'.node j = if j ∈ ids then idleNode else p.node j := by
  intro ids
  induction ids with
  | nil =>
      intro p p' h j
      cases h
      simp
  | cons id ids ih =>
      intro p p' h j
      simp only [List.foldlM_cons, Option.bind_eq_bind, Option.bind_eq_some_iff] at h
      obtain ⟨q, hq, h⟩ := h
      rw [ih h, node_finish? hq]
      by_cases hj : j = id <;> simp [hj]

private theorem node_foldlM_mark? :
    ∀ {ids : List StmtId} {p p' : Progress}, ids.foldlM mark? p = some p' →
      ∀ j, p'.node j = if j ∈ ids then { p.node j with armed := true } else p.node j := by
  intro ids
  induction ids with
  | nil =>
      intro p p' h j
      cases h
      simp
  | cons id ids ih =>
      intro p p' h j
      simp only [List.foldlM_cons, Option.bind_eq_bind, Option.bind_eq_some_iff] at h
      obtain ⟨q, hq, h⟩ := h
      rw [ih h, node_mark? hq]
      by_cases hj : j = id
      · subst hj
        by_cases hmem : j ∈ ids <;> simp [hmem]
      · simp [hj]

/-- `q` is `p` with the subtree of a statement at rest. -/
structure Cleared (t : Tree) (id : StmtId) (p q : Progress) : Prop where
  under : ∀ j, t.Under id j → q.node j = idleNode
  other : ∀ j, ¬ t.Under id j → q.node j = p.node j

/-- `q` is `p` with a statement ready to run from its start. -/
structure Readied (t : Tree) (id : StmtId) (p q : Progress) : Prop where
  spine : ∀ j, t.Spine id j → q.node j = { armed := true }
  under : ∀ j, t.Under id j → ¬ t.Spine id j → q.node j = idleNode
  other : ∀ j, ¬ t.Under id j → q.node j = p.node j

theorem cleared_of_foldlM {t : Tree} {id : StmtId} {ids : List StmtId} {p q : Progress}
    (hmem : ∀ j, j ∈ ids ↔ t.Under id j) (h : ids.foldlM finish? p = some q) :
    Cleared t id p q := by
  constructor
  · intro j hj
    rw [node_foldlM_finish? h, if_pos ((hmem j).mpr hj)]
  · intro j hj
    rw [node_foldlM_finish? h, if_neg (fun hm => hj ((hmem j).mp hm))]

theorem readied_of_foldlM {t : Tree} {id : StmtId} {ids : List StmtId} {p p₁ q : Progress}
    (hclear : Cleared t id p p₁) (hmem : ∀ j, j ∈ ids ↔ t.Spine id j)
    (h : ids.foldlM mark? p₁ = some q) : Readied t id p q := by
  refine ⟨?_, ?_, ?_⟩
  · intro j hj
    rw [node_foldlM_mark? h, if_pos ((hmem j).mpr hj), hclear.under j hj.under]
    rfl
  · intro j hj hspine
    rw [node_foldlM_mark? h, if_neg (fun hm => hspine ((hmem j).mp hm)),
      hclear.under j hj]
  · intro j hj
    have hspine : j ∉ ids := fun hm => hj ((hmem j).mp hm).under
    rw [node_foldlM_mark? h, if_neg hspine, hclear.other j hj]

theorem cleared_of_disarm? {t : Tree} {id : StmtId} {p q : Progress}
    (h : p.disarm? t id = some q) : Cleared t id p q := by
  unfold disarm? at h
  simp only [Option.bind_eq_bind, Option.bind_eq_some_iff] at h
  obtain ⟨ids, hids, h⟩ := h
  exact cleared_of_foldlM (Tree.mem_subtree?_iff hids) h

theorem readied_of_arm? {t : Tree} {id : StmtId} {p q : Progress}
    (h : p.arm? t id = some q) : Readied t id p q := by
  unfold arm? at h
  simp only [Option.bind_eq_bind, Option.bind_eq_some_iff] at h
  obtain ⟨ids, hids, p₁, hp₁, h⟩ := h
  exact readied_of_foldlM (cleared_of_disarm? hp₁) (Tree.mem_spine?_iff hids) h

end ActorScript.Progress
