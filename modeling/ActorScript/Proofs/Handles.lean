import ActorScript.Proofs.Histories

/-!
# Handles of actors

A script that waits for its next tick holds on to handles of actors, in its variables and
in the lists of its loops, and by then these actors may be gone.  This is safe because a
handle is given out once: the handles in a world are those that have been given out and
not been taken away, over any history.

## Main results

* `numbered_after` — what the record of a history says about the handles in the world.
* `actors_some` — the actors of one kind.
* `handles_never_reused` — the same for what the world answers, and what it means for a
  handle whose actor is gone.
-/

namespace ActorScript

/-- Time has passed for an actor: at most its `x` has changed, and that only if it was
moving along the x axis. -/
def Actor.Walked (a b : Actor) : Prop :=
  ∃ x, b = { a with x } ∧ ((a.moving && a.facing.isHorizontal) = false → x = a.x)

namespace GridWorld

variable {w w' : GridWorld} {past : List (Change × Answer)} {e : Change × Answer}
  {id : ActorId}

theorem walked_walk (dt : Number) (a : Actor) : a.Walked (walk dt a) := by
  unfold walk
  split
  · rename_i hmoving
    split
    · rename_i hfacing
      refine ⟨a.x - dt, rfl, fun h => ?_⟩
      rw [hmoving, hfacing] at h
      cases h
    · rename_i hfacing
      refine ⟨a.x + dt, rfl, fun h => ?_⟩
      rw [hmoving, hfacing] at h
      cases h
    · exact ⟨a.x, rfl, fun _ => rfl⟩
    · exact ⟨a.x, rfl, fun _ => rfl⟩
  · exact ⟨a.x, rfl, fun _ => rfl⟩

/-! ## What is on record -/

/-- The handle that a new actor was given. -/
def issued? : Change × Answer → Option ActorId
  | (.spawn _, .handle id) => some id
  | _ => none

/-- The handle of an actor that was taken away. -/
def removed? : Change × Answer → Option ActorId
  | (.remove id, .found true) => some id
  | _ => none

/-- The handles that have been given out, in order. -/
def issued (past : List (Change × Answer)) : List ActorId := past.filterMap issued?

/-- The handles of the actors that have been taken away. -/
def removed (past : List (Change × Answer)) : List ActorId := past.filterMap removed?

/-- Whether a change brings a new actor. -/
def Change.isSpawn : Change → Bool
  | .spawn _ => true
  | _ => false

/-- How many actors come in the course of a history. -/
def spawns (cs : List Change) : Nat := cs.countP Change.isSpawn

theorem issued_append : issued (past ++ [e]) = issued past ++ (issued? e).toList := by
  unfold issued
  rw [List.filterMap_append]
  cases h : issued? e <;> simp [h]

theorem removed_append : removed (past ++ [e]) = removed past ++ (removed? e).toList := by
  unfold removed
  rw [List.filterMap_append]
  cases h : removed? e <;> simp [h]

theorem length_issued (cs : List Change) :
    ∀ w : GridWorld, (issued (w.record cs)).length = spawns cs := by
  induction cs with
  | nil => exact fun _ => rfl
  | cons c cs ih =>
      intro w
      have hrest := ih (w.change c).2
      unfold issued spawns at *
      rw [record, List.countP_cons, ← hrest]
      cases c <;> rfl

/-! ## The handles in a world -/

/-- The handles in a world are what the record says, and the next one has not been given
out. -/
structure Numbered (past : List (Change × Answer)) (w : GridWorld) : Prop where
  ascending : Keyed.Ascending w.population
  nextId_eq : w.nextId = (issued past).length + 1
  issued_eq : issued past = List.range' 1 (issued past).length
  issued_of_removed : ∀ id ∈ removed past, id ∈ issued past
  mem_handles_iff : ∀ id, id ∈ w.handles ↔ id ∈ issued past ∧ id ∉ removed past

theorem Numbered.lt_nextId (h : Numbered past w) (hid : id ∈ issued past) :
    id < w.nextId := by
  rw [h.issued_eq, List.mem_range'_1] at hid
  rw [h.nextId_eq, Nat.add_comm]
  exact hid.2

/-- A change that is not about the handles. -/
theorem Numbered.of_handles (h : Numbered past w) (hissued : issued? e = none)
    (hremoved : removed? e = none)
    (hkept : w'.handles = w.handles ∧ w'.nextId = w.nextId) :
    Numbered (past ++ [e]) w' := by
  obtain ⟨hhandles, hnext⟩ := hkept
  have hi : issued (past ++ [e]) = issued past := by
    rw [issued_append, hissued, Option.toList_none, List.append_nil]
  have hr : removed (past ++ [e]) = removed past := by
    rw [removed_append, hremoved, Option.toList_none, List.append_nil]
  constructor
  · show w'.handles.Pairwise _
    rw [hhandles]
    exact h.ascending
  · rw [hnext, hi, h.nextId_eq]
  · rw [hi]
    exact h.issued_eq
  · rw [hi, hr]
    exact h.issued_of_removed
  · rw [hhandles, hi, hr]
    exact h.mem_handles_iff

theorem Numbered.spawn (h : Numbered past w) (actor : Actor) :
    Numbered (past ++ [(.spawn actor, .handle w.nextId)]) (w.spawn actor).2 := by
  have hi : issued (past ++ [(.spawn actor, .handle w.nextId)]) =
      issued past ++ [w.nextId] :=
    issued_append
  have hr : removed (past ++ [(.spawn actor, .handle w.nextId)]) = removed past := by
    rw [removed_append]
    exact List.append_nil _
  constructor
  · exact h.ascending.insert w.nextId actor
  · show w.nextId + 1 = _
    rw [hi, List.length_append, h.nextId_eq]
    rfl
  · rw [hi, List.length_append, List.length_singleton, List.range'_concat, ← h.issued_eq,
      h.nextId_eq, Nat.one_mul, Nat.add_comm 1]
  · rw [hi, hr]
    exact fun id hid => List.mem_append_left _ (h.issued_of_removed id hid)
  · intro id
    show id ∈ (Keyed.insert w.nextId actor w.population).map Prod.fst ↔ _
    rw [Keyed.mem_keys_insert, hi, hr, List.mem_append, List.mem_singleton]
    have hmem : id ∈ w.population.map Prod.fst ↔ _ := h.mem_handles_iff id
    rw [hmem]
    -- what has been taken away had been given out, so the new handle is not among it
    have hfresh : id = w.nextId → id ∉ removed past := by
      rintro rfl hgone
      exact Nat.lt_irrefl _ (h.lt_nextId (h.issued_of_removed _ hgone))
    constructor
    · rintro (hnew | ⟨hold, hstays⟩)
      · exact ⟨.inr hnew, hfresh hnew⟩
      · exact ⟨.inl hold, hstays⟩
    · rintro ⟨hold | hnew, hstays⟩
      · exact .inr ⟨hold, hstays⟩
      · exact .inl hnew

theorem Numbered.remove (h : Numbered past w) (hw : w.remove? id = some w') :
    Numbered (past ++ [(.remove id, .found true)]) w' := by
  have hi : issued (past ++ [(.remove id, .found true)]) = issued past := by
    rw [issued_append]
    exact List.append_nil _
  have hr : removed (past ++ [(.remove id, .found true)]) = removed past ++ [id] :=
    removed_append
  have hhandles := handles_remove? hw
  obtain ⟨a, ha, rfl⟩ := Option.map_eq_some_iff.mp hw
  have hid : id ∈ issued past :=
    ((h.mem_handles_iff id).mp (isSome_find?_iff.mp (Option.isSome_of_eq_some ha))).1
  constructor
  · show List.Pairwise _ (handles _)
    rw [hhandles]
    exact h.ascending.filter _
  · rw [hi]
    exact h.nextId_eq
  · rw [hi]
    exact h.issued_eq
  · rw [hi, hr]
    intro i hmem
    rcases List.mem_append.mp hmem with hmem | hmem
    · exact h.issued_of_removed i hmem
    · rw [List.mem_singleton.mp hmem]
      exact hid
  · intro i
    rw [hhandles, hi, hr, List.mem_filter, h.mem_handles_iff i, bne_iff_ne,
      List.mem_append, List.mem_singleton, not_or, and_assoc]

theorem Numbered.change (h : Numbered past w) (c : Change) :
    Numbered (past ++ [(c, (w.change c).1)]) (w.change c).2 := by
  cases c with
  | spawn actor => exact h.spawn actor
  | remove id =>
      show Numbered (past ++ [(_, .found (w.remove? id).isSome)]) ((w.remove? id).getD w)
      cases hw : w.remove? id with
      | none => exact h.of_handles rfl rfl ⟨rfl, rfl⟩
      | some w' => exact h.remove hw
  | edit | command | step | setTile =>
      exact h.of_handles rfl rfl (handles_change (fun _ => nofun) fun _ => nofun)

theorem numbered_empty (width height : Int) : Numbered [] (empty width height) where
  ascending := .nil
  nextId_eq := rfl
  issued_eq := rfl
  issued_of_removed _ hid := nomatch hid
  mem_handles_iff _ := ⟨(nomatch ·), fun hid => nomatch hid.1⟩

/-- **The handles over all histories.** -/
theorem numbered_after (width height : Int) (cs : List Change) :
    Numbered ((empty width height).record cs) ((empty width height).after cs) :=
  record_induction (numbered_empty width height) (fun _ _ c h => h.change c) cs

/-! ## What the world answers -/

theorem actors_none (w : GridWorld) : World.actors w none = w.handles :=
  congrArg (List.map Prod.fst) (List.filter_eq_self.mpr fun _ _ => rfl)

/-- **The actors of one kind** are those of all actors that are of the kind now. -/
theorem actors_some (h : Keyed.Ascending w.population) (k : ActorKind) :
    World.actors w (some k) =
      w.handles.filter fun id => (w.find? id).any (·.kind == k) := by
  show (w.population.filter _).map Prod.fst = (w.population.map Prod.fst).filter _
  rw [List.filter_map]
  refine congrArg _ (List.filter_congr fun entry hentry => ?_)
  obtain ⟨i, a⟩ := entry
  have hfind : w.find? i = some a := (Keyed.lookup_eq_some_iff h).mpr hentry
  show (a.kind == k) = (w.find? i).any (·.kind == k)
  rw [hfind]
  rfl

theorem Numbered.handles_eq (h : Numbered past w) :
    w.handles = (issued past).filter (· ∉ removed past) := by
  have hissued : (issued past).Pairwise (· < ·) := by
    rw [h.issued_eq]
    exact List.pairwise_lt_range'
  refine Keyed.eq_of_ascending h.ascending (hissued.filter _) fun id => ?_
  rw [h.mem_handles_iff, List.mem_filter, decide_eq_true_iff]

/-- Nobody obeys a command to an actor that is not there, but it is put on record. -/
theorem command_of_missing (h : w.find? id = none) (c : Command) :
    w.command id c = (.missing, { w with log := w.log.push (id, c) }) := by
  have hlogged : ({ w with log := w.log.push (id, c) } : GridWorld).find? id = none := h
  unfold command
  dsimp only
  rw [hlogged]

/-- A handle that nobody answers to. -/
structure Gone (w : GridWorld) (id : ActorId) : Prop where
  unlisted : ∀ kind, id ∉ World.actors w kind
  unresolved : World.actor? w id = none
  missing : ∀ c, World.command w id c = (.missing, { w with log := w.log.push (id, c) })

theorem Numbered.gone (h : Numbered past w) (hid : id ∈ removed past) : Gone w id := by
  have hnot : id ∉ w.handles := fun hmem => ((h.mem_handles_iff id).mp hmem).2 hid
  have hnone := find?_eq_none_iff.mpr hnot
  refine ⟨fun kind => ?_, hnone, command_of_missing hnone⟩
  cases kind with
  | none =>
      rw [actors_none]
      exact hnot
  | some k =>
      rw [actors_some h.ascending]
      exact fun hmem => hnot (List.mem_filter.mp hmem).1

/-- The world answers for the actors that have come and have not been taken away. -/
structure Registered (past : List (Change × Answer)) (w : GridWorld) : Prop where
  /-- A new actor comes under a handle of nobody. -/
  spawn_fresh : ∀ a, w.find? (w.spawn a).1 = none ∧
    (w.spawn a).2.find? (w.spawn a).1 = some a
  actors_eq : World.actors w none = (issued past).filter (· ∉ removed past)
  ascending : (World.actors w none).Pairwise (· < ·)
  actors_kind : ∀ k, World.actors w (some k) =
    (World.actors w none).filter fun id => (World.actor? w id).any (·.kind == k)
  actor_iff : ∀ id, (World.actor? w id).isSome = true ↔ id ∈ World.actors w none
  remove_iff : ∀ id, (w.remove? id).isSome = true ↔ id ∈ World.actors w none
  /-- No change touches an actor that it is not about. -/
  others : ∀ c id, (∀ dt, c ≠ .step dt) → c.subject? w ≠ some id →
    World.actor? (w.change c).2 id = World.actor? w id
  /-- Time moves those that walk, and does nothing else. -/
  walked : ∀ dt id, Option.Rel Actor.Walked (World.actor? w id)
    (World.actor? (w.step dt) id)

theorem Numbered.registered (h : Numbered past w) : Registered past w := by
  have hnext : w.nextId ∉ w.handles := fun hmem =>
    Nat.lt_irrefl _ (h.lt_nextId ((h.mem_handles_iff _).mp hmem).1)
  constructor
  · intro a
    exact ⟨find?_eq_none_iff.mpr hnext, (find?_spawn w a _).trans (if_pos rfl)⟩
  · rw [actors_none, h.handles_eq]
  · rw [actors_none]
    exact h.ascending
  · intro k
    rw [actors_none, actors_some h.ascending]
    rfl
  · intro id
    rw [actors_none]
    exact isSome_find?_iff
  · intro id
    rw [actors_none, remove?, Option.isSome_map]
    exact isSome_find?_iff
  · exact fun c id hstep hid => find?_change hstep hid
  · intro dt id
    show Option.Rel _ (w.find? id) ((w.step dt).find? id)
    rw [find?_step]
    cases w.find? id with
    | none => exact .none
    | some a => exact .some (walked_walk dt a)

/--
**Handles are never used twice.**  In a new world that fewer than `2 ^ 32 - 1` actors come
into, the `n`-th of them comes under the handle `n`, which is nobody's, and the counter of
handles stays within 32 bits.  After any history the world lists, by ascending handle,
exactly the actors that have come and have not been taken away; for a kind it lists those
of them that are of the kind now, and it finds an actor exactly if it lists it.  A handle
whose actor has been taken away is from then on neither listed nor resolved, and commands
to it do nothing but extend the log.  No change touches another actor than the one it is
about, except that time moves those that walk.
-/
theorem handles_never_reused (width height : Int) {cs : List Change}
    (hspawns : spawns cs < 2 ^ 32 - 1) :
    issued ((empty width height).record cs) = List.range' 1 (spawns cs) ∧
      ((empty width height).after cs).nextId < 2 ^ 32 ∧
      Registered ((empty width height).record cs) ((empty width height).after cs) ∧
      ∀ earlier later, cs = earlier ++ later →
        ∀ id ∈ removed ((empty width height).record earlier),
          Gone ((empty width height).after cs) id := by
  have h := numbered_after width height cs
  have hlength := length_issued cs (empty width height)
  refine ⟨?_, ?_, h.registered, ?_⟩
  · rw [← hlength]
    exact h.issued_eq
  · rw [h.nextId_eq, hlength]
    exact Nat.add_lt_of_lt_sub hspawns
  · rintro earlier later rfl id hid
    apply h.gone
    rw [record_append, removed, List.filterMap_append]
    exact List.mem_append_left _ hid

/-- Three actors come, the second one goes, and one more comes; a stale handle is given a
command and taken away once more. -/
def comings : List Change :=
  [.spawn { kind := .player, x := .zero, y := .zero },
    .spawn { kind := .enemy, x := .one, y := .zero },
    .spawn { kind := .enemy, x := .one, y := .one }, .remove 2,
    .edit 3 fun a => { a with kind := .pickup },
    .spawn { kind := .enemy, x := .zero, y := .one }, .command 2 .startJump, .remove 2]

theorem handles_never_reused_comings :
    spawns comings < 2 ^ 32 - 1 ∧ issued ((empty 4 4).record comings) = [1, 2, 3, 4] ∧
      removed ((empty 4 4).record comings) = [2] ∧
      World.actors ((empty 4 4).after comings) none = [1, 3, 4] ∧
      World.actors ((empty 4 4).after comings) (some .enemy) = [4] ∧
      Gone ((empty 4 4).after comings) 2 := by
  have hspawns : spawns comings < 2 ^ 32 - 1 := by decide
  obtain ⟨hissued, -, hregistered, hgone⟩ := handles_never_reused 4 4 hspawns
  have hremoved : removed ((empty 4 4).record comings) = [2] := by decide
  refine ⟨hspawns, hissued, hremoved, ?_, by decide, ?_⟩
  · rw [hregistered.actors_eq, hissued, hremoved]
    decide
  · refine hgone comings [] (List.append_nil _).symm 2 ?_
    rw [hremoved]
    exact List.mem_singleton_self 2

end GridWorld

end ActorScript
