import ActorScript.Proofs.Worklist

/-!
# What validation accepts

`Tree.Executable` says which trees can be run without a word about how that is
found out: it speaks of the statements that are reached from the root and of the
places at which they stand as children.  On an arbitrary graph a statement can be
reached on many ways, and "every statement stands at one place" is then what
makes the graph a tree.

## Main results

* `Proper.place_unique` — in a proper tree a statement stands at one place.
* `Executable.apart` — where every statement stands at one place, the subtrees of
  two children have nothing in common.
* `exists_walk` — the walk of `validate` comes to its end on every proper tree.
* `validate_exact` — validation reads inside the tables, and it accepts exactly
  the executable trees.
-/

namespace ActorScript.Tree

/-- The child at a place of a statement. -/
def child? (t : Tree) (id : StmtId) (place : Nat) : Option StmtId := do
  (← t.children? id)[place]?

/-- The trees that can be run, from the statement `root` on. -/
structure Executable (t : Tree) (root : StmtId) : Prop where
  isRoot : t.root = some root
  /-- No name is declared twice. -/
  globals : (t.globals.toList.map Prod.fst).Nodup
  /-- The operands of all expressions, in use or not, exist and stand before them. -/
  exprs : ∀ id e, t.expr? id = some e → ∀ o ∈ e.operands, o < t.exprs.size ∧ o < id
  root_exists : root < t.stmts.size
  operands : ∀ id s, t.Under root id → t.stmt? id = some s → ∀ e ∈ s.operands,
    e < t.exprs.size
  /-- The body of a sequence lies in the list table. -/
  slices : ∀ id body, t.Under root id → t.stmt? id = some (.sequence body) →
    body.start + body.length ≤ t.lists.size
  /-- Children exist and stand before their parents. -/
  children : ∀ id cs, t.Under root id → t.children? id = some cs →
    ∀ c ∈ cs, c < t.stmts.size ∧ c < id
  /-- Every statement but the root stands at one place under a statement. -/
  place : ∀ c, t.Under root c → c ≠ root →
    ∃! p : StmtId × Nat, t.Under root p.1 ∧ t.child? p.1 p.2 = some c
  /-- The root stands under no statement. -/
  top : ∀ id place, t.Under root id → t.child? id place ≠ some root
  /-- Every `leaveLoop` has a loop around it. -/
  leaves : ∀ id, t.Under root id → t.stmt? id = some .leaveLoop →
    ∃ l s, t.Under root l ∧ t.Under l id ∧ t.stmt? l = some s ∧ s.isLoop = true

/-! ## Places -/

theorem child?_eq_some_iff {t : Tree} {id c : StmtId} {place : Nat} :
    t.child? id place = some c ↔
      ∃ cs, t.children? id = some cs ∧ cs[place]? = some c := by
  simp [child?, Option.bind_eq_some_iff]

theorem child?_eq {t : Tree} {id : StmtId} {place : Nat} {cs : List StmtId}
    (hcs : t.children? id = some cs) : t.child? id place = cs[place]? := by
  simp [child?, hcs]

theorem Under.of_child? {t : Tree} {id c : StmtId} {place : Nat}
    (h : t.child? id place = some c) : t.Under id c := by
  obtain ⟨cs, hcs, hc⟩ := child?_eq_some_iff.mp h
  exact .of_child hcs (List.mem_of_getElem? hc)

/-- What stands under a statement is the statement or stands at a place of
another one there. -/
theorem Under.exists_place {t : Tree} {id j : StmtId} (h : t.Under id j) :
    j = id ∨ ∃ p place, t.Under id p ∧ t.child? p place = some j := by
  induction h with
  | refl id => exact .inl rfl
  | @child id c j cs hcs hc h ih =>
      rcases ih with rfl | ⟨p, place, hp, hj⟩
      · obtain ⟨place, hplace⟩ := List.getElem?_of_mem hc
        exact .inr ⟨id, place, .refl id, (child?_eq hcs).trans hplace⟩
      · exact .inr ⟨p, place, .child hcs hc hp, hj⟩

/-- Where statements stand at one place each, of two statements over a third one, one
stands over the other. -/
theorem Under.comparable {t : Tree} {root a b j : StmtId} (haj : t.Under a j)
    (hplace : ∀ {c p q i i'}, t.Under root p → t.Under root q → t.child? p i = some c →
      t.child? q i' = some c → p = q)
    (ha : t.Under root a) (hb : t.Under root b) (hbj : t.Under b j) :
    t.Under a b ∨ t.Under b a := by
  induction haj with
  | refl a => exact .inr hbj
  | @child a c j cs hcs hc _ ih =>
      have hac : t.Under a c := .of_child hcs hc
      rcases ih (ha.trans hac) hbj with hcb | hbc
      · exact .inl (hac.trans hcb)
      · rcases hbc.exists_place with rfl | ⟨p, i, hp, hpc⟩
        · exact .inl hac
        · obtain ⟨place, hcplace⟩ := List.getElem?_of_mem hc
          cases hplace (hb.trans hp) ha hpc ((child?_eq hcs).trans hcplace)
          exact .inr hp

/-! ## Proper trees are executable -/

section Proper

variable {t : Tree} {root : StmtId}

/-- The children of a statement of a proper tree are different. -/
theorem Fork.nodup {id : StmtId} {s : Stmt} {cs : List StmtId} (hf : t.Fork id s cs) :
    cs.Nodup := by
  refine hf.apart.imp ?_
  rintro c _ hapart rfl
  exact hapart c (.refl c) (.refl c)

/-- A child of a statement has no second place under that statement. -/
theorem Proper.child_elsewhere (ht : t.Proper root) {id c d p : StmtId}
    {i : Nat} {s : Stmt} {cs : List StmtId} (hid : t.Under root id) (hf : t.Fork id s cs)
    (hc : c ∈ cs) (hd : d ∈ cs) (hp : t.Under d p) : t.child? p i ≠ some c := by
  intro hpc
  by_cases hne : d = c
  · subst hne
    obtain ⟨cs', hcs', hmem⟩ := child?_eq_some_iff.mp hpc
    have hup : t.Under root p := hid.trans (.child hf.children? hd hp)
    obtain ⟨s', cs'', hf'⟩ := ht.fork p hup
    rw [hf'.children?] at hcs'
    cases hcs'
    exact ht.not_under_child hup hf' (List.mem_of_getElem? hmem) hp
  · exact hf.apart_of_ne hc hd hne c (.refl c) (hp.trans (.of_child? hpc))

/-- **In a proper tree a statement stands at one place.** -/
theorem Proper.place_unique (ht : t.Proper root) {id c p q : StmtId} {i j : Nat}
    (hid : t.Under root id) (hp : t.Under id p) (hq : t.Under id q)
    (hpc : t.child? p i = some c) (hqc : t.child? q j = some c) : p = q ∧ i = j := by
  induction hp with
  | refl id =>
      obtain ⟨s, cs, hf⟩ := ht.fork id hid
      rw [child?_eq hf.children?] at hpc
      rcases (under_iff hf.children?).mp hq with rfl | ⟨d, hd, hq⟩
      · rw [child?_eq hf.children?] at hqc
        have hlt := (List.getElem?_eq_some_iff.mp hpc).1
        exact ⟨rfl, (List.getElem?_inj hlt hf.nodup).mp (hpc.trans hqc.symm)⟩
      · exact absurd hqc (ht.child_elsewhere hid hf (List.mem_of_getElem? hpc) hd hq)
  | @child id d p cs hcs hd hp ih =>
      obtain ⟨s, cs', hf⟩ := ht.fork id hid
      rw [hf.children?] at hcs
      cases hcs
      rcases (under_iff hf.children?).mp hq with rfl | ⟨d', hd', hq⟩
      · rw [child?_eq hf.children?] at hqc
        exact absurd hpc (ht.child_elsewhere hid hf (List.mem_of_getElem? hqc) hd hp)
      · by_cases hne : d' = d
        · subst hne
          exact ih (hid.trans (.of_child hf.children? hd)) hq hpc
        · exact absurd (hq.trans (.of_child? hqc))
            (hf.apart_of_ne hd hd' hne c (hp.trans (.of_child? hpc)))

theorem Proper.comparable (ht : t.Proper root) {a b j : StmtId} (ha : t.Under root a)
    (hb : t.Under root b) (haj : t.Under a j) (hbj : t.Under b j) :
    t.Under a b ∨ t.Under b a :=
  haj.comparable (fun hp hq hpc hqc => (ht.place_unique (.refl root) hp hq hpc hqc).1) ha
    hb hbj

/-- A `leaveLoop` under a statement has a loop around it there, or is exposed. -/
theorem Under.exposed_or_loop {id j : StmtId} (h : t.Under id j)
    (hj : t.stmt? j = some .leaveLoop) :
    t.Exposed id ∨ ∃ l s, t.Under id l ∧ t.Under l j ∧ t.stmt? l = some s ∧
      s.isLoop = true := by
  induction h with
  | refl id => exact .inl (.here hj)
  | @child id c j cs hcs hc h ih =>
      obtain ⟨s, hs, hchildren⟩ := Option.bind_eq_some_iff.mp hcs
      rcases ih hj with hexposed | ⟨l, s', hl, hlj, hs', hloop⟩
      · cases hloop : s.isLoop with
        | true => exact .inr ⟨id, s, .refl id, .child hcs hc h, hs, hloop⟩
        | false => exact .inl (.child hs hloop hchildren hc hexposed)
      · exact .inr ⟨l, s', .child hcs hc hl, hlj, hs', hloop⟩

/-- Valid trees are executable. -/
theorem executable_of_validate (h : t.validate = .ok root) : t.Executable root := by
  have ht := proper_of_validate h
  obtain ⟨hroot, hglobals, hexprs, -⟩ := validate_eq_ok_iff.mp h
  have hsize : ∀ id, t.Under root id → id < t.stmts.size := by
    intro id hid
    obtain ⟨s, cs, hf⟩ := ht.fork id hid
    exact (Array.getElem?_eq_some_iff.mp hf.stmt).1
  exact
    { isRoot := hroot
      globals := (checkGlobals_eq_ok_iff.mp hglobals).1
      exprs := checkExprs_eq_ok_iff.mp hexprs
      root_exists := hsize root (.refl root)
      operands := by
        intro id s hid hs
        obtain ⟨s', cs, hf⟩ := ht.fork id hid
        have heq := hf.stmt
        rw [hs] at heq
        cases heq
        exact hf.operands
      slices := by
        intro id body hid hs
        obtain ⟨s, cs, hf⟩ := ht.fork id hid
        have heq := hf.stmt
        rw [hs] at heq
        cases heq
        have hslice := hf.children
        simp only [childrenOf?, slice?] at hslice
        split at hslice
        · assumption
        · cases hslice
      children := by
        intro id cs hid hcs c hc
        obtain ⟨s, cs', hf⟩ := ht.fork id hid
        rw [hf.children?] at hcs
        cases hcs
        exact ⟨hsize c (hid.trans (.of_child hf.children? hc)), hf.below c hc⟩
      place := by
        intro c hc hne
        rcases hc.exists_place with rfl | ⟨p, i, hp, hpc⟩
        · exact absurd rfl hne
        · refine ⟨(p, i), ⟨hp, hpc⟩, ?_⟩
          rintro ⟨q, j⟩ ⟨hq, hqc⟩
          obtain ⟨rfl, rfl⟩ := ht.place_unique (.refl root) hq hp hqc hpc
          rfl
      top := by
        intro id i hid hchild
        obtain ⟨cs, hcs, hmem⟩ := child?_eq_some_iff.mp hchild
        obtain ⟨s, cs', hf⟩ := ht.fork id hid
        rw [hf.children?] at hcs
        cases hcs
        exact ht.not_under_child hid hf (List.mem_of_getElem? hmem) hid
      leaves := by
        intro id hid hs
        exact (hid.exposed_or_loop hs).resolve_left ht.enclosed }

end Proper

/-! ## Executable trees are proper -/

namespace Executable

variable {t : Tree} {root : StmtId}

/-- A statement has a greater position than what stands at its places. -/
theorem lt_of_child? (he : t.Executable root) {id c : StmtId} {i : Nat}
    (hid : t.Under root id) (hc : t.child? id i = some c) : c < id := by
  obtain ⟨cs, hcs, hmem⟩ := child?_eq_some_iff.mp hc
  exact (he.children id cs hid hcs c (List.mem_of_getElem? hmem)).2

theorem le_of_under (he : t.Executable root) {id j : StmtId} (hid : t.Under root id)
    (hj : t.Under id j) : j ≤ id := by
  induction hj with
  | refl id => exact Nat.le_refl id
  | @child id c j cs hcs hc hj ih =>
      have hlt := (he.children id cs hid hcs c hc).2
      exact Nat.le_trans (ih (hid.trans (.of_child hcs hc))) (Nat.le_of_lt hlt)

/-- What stands at two places stands at one. -/
theorem place_unique (he : t.Executable root) {c p q : StmtId} {i j : Nat}
    (hp : t.Under root p) (hq : t.Under root q) (hpc : t.child? p i = some c)
    (hqc : t.child? q j = some c) : p = q ∧ i = j := by
  have hne : c ≠ root := by
    rintro rfl
    exact he.top p i hp hpc
  obtain ⟨_, -, hunique⟩ := he.place c (hp.trans (.of_child? hpc)) hne
  have heq := (hunique (p, i) ⟨hp, hpc⟩).trans (hunique (q, j) ⟨hq, hqc⟩).symm
  exact ⟨congrArg Prod.fst heq, congrArg Prod.snd heq⟩

theorem comparable (he : t.Executable root) {c d j : StmtId} (hc : t.Under root c)
    (hd : t.Under root d) (hcj : t.Under c j) (hdj : t.Under d j) :
    t.Under c d ∨ t.Under d c :=
  hcj.comparable (fun hp hq hpc hqc => (he.place_unique hp hq hpc hqc).1) hc hd hdj

/-- A child stands under no child at another place. -/
theorem place_eq_of_under (he : t.Executable root) {id c d : StmtId} {i j : Nat}
    (hid : t.Under root id) (hc : t.child? id i = some c) (hd : t.child? id j = some d)
    (hcd : t.Under c d) : i = j := by
  rcases hcd.exists_place with rfl | ⟨p, k, hp, hpd⟩
  · exact (he.place_unique hid hid hc hd).2
  · have hup : t.Under root p := hid.trans ((Under.of_child? hc).trans hp)
    obtain ⟨rfl, -⟩ := he.place_unique hup hid hpd hd
    have hle := he.le_of_under (hid.trans (.of_child? hc)) hp
    exact absurd (he.lt_of_child? hid hc) (Nat.not_lt.mpr hle)

/-- The subtrees of two children have nothing in common. -/
theorem apart (he : t.Executable root) {id : StmtId} {cs : List StmtId}
    (hid : t.Under root id) (hcs : t.children? id = some cs) : cs.Pairwise t.Apart := by
  rw [List.pairwise_iff_getElem]
  intro i j hi hj hij x hix hjx
  have hc : t.child? id i = some cs[i] :=
    (child?_eq hcs).trans (List.getElem?_eq_getElem hi)
  have hd : t.child? id j = some cs[j] :=
    (child?_eq hcs).trans (List.getElem?_eq_getElem hj)
  rcases he.comparable (hid.trans (.of_child? hc)) (hid.trans (.of_child? hd)) hix
    hjx with h | h
  · exact absurd (he.place_eq_of_under hid hc hd h) (by omega)
  · exact absurd (he.place_eq_of_under hid hd hc h) (by omega)

theorem lt_size (he : t.Executable root) {id : StmtId} (hid : t.Under root id) :
    id < t.stmts.size := by
  rcases hid.exists_place with rfl | ⟨p, i, hp, hpid⟩
  · exact he.root_exists
  · obtain ⟨cs, hcs, hmem⟩ := child?_eq_some_iff.mp hpid
    exact (he.children p cs hp hcs id (List.mem_of_getElem? hmem)).1

theorem exists_children (he : t.Executable root) {id : StmtId} {s : Stmt}
    (hid : t.Under root id) (hs : t.stmt? id = some s) :
    ∃ cs, t.childrenOf? s = some cs := by
  cases s with
  | sequence body =>
      have hbody := he.slices id body hid hs
      simp [childrenOf?, slice?, hbody]
  | assign | conditional | «while» | forEach | wait | leaveLoop | print | skip | act =>
      exact ⟨_, rfl⟩

theorem fork (he : t.Executable root) {id : StmtId} (hid : t.Under root id) :
    ∃ s cs, t.Fork id s cs := by
  obtain ⟨s, hs⟩ : ∃ s, t.stmt? id = some s :=
    ⟨_, Array.getElem?_eq_getElem (he.lt_size hid)⟩
  obtain ⟨cs, hcs⟩ := he.exists_children hid hs
  have hchildren : t.children? id = some cs := (children?_eq hs).trans hcs
  exact ⟨s, cs,
    { stmt := hs
      children := hcs
      below := fun c hc => (he.children id cs hid hchildren c hc).2
      apart := he.apart hid hchildren
      operands := he.operands id s hid hs }⟩

/-- An exposed `leaveLoop` has no loop around it on any way. -/
theorem exists_stray (he : t.Executable root) {id : StmtId} (h : t.Exposed id)
    (hid : t.Under root id) :
    ∃ j, t.Under id j ∧ t.stmt? j = some .leaveLoop ∧
      ∀ l s, t.Under id l → t.Under l j → t.stmt? l = some s → s.isLoop = false := by
  induction h with
  | @here id hs =>
      refine ⟨id, .refl id, hs, ?_⟩
      intro l s hl _ hs'
      have hchildren : t.children? id = some [] := children?_eq hs
      rcases (under_iff hchildren).mp hl with rfl | ⟨c, hc, -⟩
      · rw [hs] at hs'
        cases hs'
        rfl
      · cases hc
  | @child id c s cs hs hnot hcs hc h ih =>
      have hchildren : t.children? id = some cs := (children?_eq hs).trans hcs
      obtain ⟨s', cs', hf⟩ := he.fork hid
      rw [hf.children?] at hchildren
      cases hchildren
      obtain ⟨j, hj, hleave, hfree⟩ := ih (hid.trans (.of_child hf.children? hc))
      refine ⟨j, .child hf.children? hc hj, hleave, ?_⟩
      intro l s'' hl hlj hs''
      rcases (under_iff hf.children?).mp hl with rfl | ⟨d, hd, hl⟩
      · rw [hs] at hs''
        cases hs''
        exact hnot
      · by_cases hne : d = c
        · subst hne
          exact hfree l s'' hl hlj hs''
        · exact absurd (hl.trans hlj) (hf.apart_of_ne hc hd hne j hj)

/-- **Executable trees are proper.** -/
theorem proper (he : t.Executable root) : t.Proper root where
  fork _ hid := he.fork hid
  enclosed hexposed := by
    obtain ⟨j, hj, hleave, hfree⟩ := he.exists_stray hexposed (.refl root)
    obtain ⟨l, s, hl, hlj, hs, hloop⟩ := he.leaves j hj hleave
    simp [hfree l s hl hlj hs] at hloop

end Executable

/-! ## The walk comes to its end -/

/-- Walks over subtrees that are apart come to their end if each of them does. -/
theorem exists_foldlM_walk {t : Tree} {bound : Nat} {inLoop : Bool} :
    ∀ {ids visited : List StmtId}, ids.Pairwise t.Apart →
      (∀ c ∈ ids, ∀ j, t.Under c j → j ∉ visited) →
      (∀ c ∈ ids, ∀ visited, (∀ j, t.Under c j → j ∉ visited) →
        ∃ visited', t.walk bound inLoop visited c = .ok visited') →
      ∃ visited', ids.foldlM (t.walk bound inLoop) visited = .ok visited' := by
  intro ids
  induction ids with
  | nil => exact fun _ _ _ => ⟨_, rfl⟩
  | cons c ids ih =>
      intro visited hapart hnew hwalk
      rw [List.pairwise_cons] at hapart
      obtain ⟨visited₁, hc⟩ := hwalk c (by simp) visited (hnew c (by simp))
      have hmem := (walked_of_walk hc).mem
      simp only [List.mem_singleton, exists_eq_left] at hmem
      simp only [List.foldlM_cons, hc, bind, Except.bind]
      refine ih hapart.2 ?_ fun d hd => hwalk d (List.mem_cons_of_mem _ hd)
      intro d hd j hj hvisited
      rcases (hmem j).mp hvisited with hvisited | hcj
      · exact hnew d (List.mem_cons_of_mem _ hd) j hj hvisited
      · exact hapart.1 d hd j hcj hj

/-- The walk comes to its end in every subtree of which nothing has been visited. -/
theorem exists_walk {t : Tree} {root : StmtId} (ht : t.Proper root) {bound : Nat}
    {inLoop : Bool} {visited : List StmtId} {id : StmtId} (hid : t.Under root id)
    (hbound : id < bound) (hnew : ∀ j, t.Under id j → j ∉ visited)
    (hleave : inLoop = false → ¬ t.Exposed id) :
    ∃ visited', t.walk bound inLoop visited id = .ok visited' := by
  induction bound generalizing inLoop visited id with
  | zero => exact absurd hbound (Nat.not_lt_zero id)
  | succ bound ih =>
      obtain ⟨s, cs, hf⟩ := ht.fork id hid
      have hunvisited : visited.contains id = false := by
        simpa using hnew id (.refl id)
      have hstmt : t.checkStmt inLoop id s = .ok () := by
        refine checkStmt_eq_ok_iff.mpr ⟨⟨cs, hf.children⟩, ?_, hf.operands⟩
        rintro rfl
        cases inLoop with
        | true => rfl
        | false => exact absurd (.here hf.stmt) (hleave rfl)
      have hchildren : cs.forM (t.checkChild id) = .ok () := by
        refine forM_eq_ok_iff.mpr fun c hc => checkChild_eq_ok_iff.mpr ⟨?_, hf.below c hc⟩
        obtain ⟨_, _, hf'⟩ := ht.fork c (hid.trans (.of_child hf.children? hc))
        exact (Array.getElem?_eq_some_iff.mp hf'.stmt).1
      simp only [walk, hunvisited, hf.stmt, hstmt, hf.children,
        Option.getD_some, hchildren, Bool.false_eq_true, if_false]
      refine exists_foldlM_walk
        (List.pairwise_reverse.mpr (hf.apart.imp Apart.symm)) ?_ ?_
      · intro c hc j hj hvisited
        have hc := List.mem_reverse.mp hc
        rcases List.mem_cons.mp hvisited with rfl | hvisited
        · exact ht.not_under_child hid hf hc hj
        · exact hnew j (.child hf.children? hc hj) hvisited
      · intro c hc visited hnew
        have hc := List.mem_reverse.mp hc
        refine ih (hid.trans (.of_child hf.children? hc))
          (Nat.lt_of_lt_of_le (hf.below c hc) (Nat.lt_succ_iff.mp hbound)) hnew ?_
        intro hout hexposed
        rw [Bool.or_eq_false_iff] at hout
        exact hleave hout.1 (.child hf.stmt hout.2 hf.children hc hexposed)

theorem validate_of_executable {t : Tree} {root : StmtId} (he : t.Executable root) :
    t.validate = .ok root := by
  refine validate_eq_ok_iff.mpr ⟨he.isRoot, ?_, checkExprs_eq_ok_iff.mpr he.exprs, ?_⟩
  · exact checkGlobals_eq_ok_iff.mpr ⟨he.globals, by simp⟩
  · exact exists_walk he.proper (.refl root) he.root_exists (by simp) fun _ =>
      he.proper.enclosed

/-- **Validation is exact.**  On every tree whatsoever, validation comes to its
end without a read outside of a table, and it accepts exactly the trees that can
be run. -/
theorem validate_exact (t : Tree) :
    t.inspect.run = some t.validate ∧ ∀ root, t.validate = .ok root ↔ t.Executable root :=
  ⟨t.inspect_run, fun _ => ⟨executable_of_validate, validate_of_executable⟩⟩

end ActorScript.Tree
