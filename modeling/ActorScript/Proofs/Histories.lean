import ActorScript.Proofs.Footprint

/-!
# Histories of grid worlds

Between the ticks of a script anything may be done to a grid world: actors come, go and
are changed, they are given commands, they walk, and tiles are set.  A history is a list
of such changes, and its record has the answer of the world beside each of them.

## Main results

* `record_induction` — what the first world satisfies and every change keeps holds after
  every history, of the world and of the record.
* `sameGrid_change` — only `setTile` touches the grid.
* `handles_change` — only `spawn` and `remove` touch the handles.
* `find?_change` — a change leaves the actors alone that it is not about.
-/

namespace ActorScript

namespace GridWorld

/-- What can be done to a grid world from outside. -/
inductive Change where
  | spawn (actor : Actor)
  | remove (id : ActorId)
  /-- Makes of the actor with a handle what `f` says. -/
  | edit (id : ActorId) (f : Actor → Actor)
  | command (subject : ActorId) (c : Command)
  | step (dt : Number)
  | setTile (t : Tile) (c : TileClass)

/-- What the world answers to a change. -/
inductive Answer where
  /-- The handle of a new actor. -/
  | handle (id : ActorId)
  /-- Whether there was anything to change. -/
  | found (yes : Bool)
  | outcome (outcome : CommandOutcome)
  | silence
deriving DecidableEq

/-- A world after a change for which there may be nothing to change. -/
def attempt (w : GridWorld) (changed : Option GridWorld) : Answer × GridWorld :=
  (.found changed.isSome, changed.getD w)

/-- Carries out a change. -/
def change (w : GridWorld) : Change → Answer × GridWorld
  | .spawn actor => (.handle (w.spawn actor).1, (w.spawn actor).2)
  | .remove id => w.attempt (w.remove? id)
  | .edit id f => w.attempt (w.modify? id f)
  | .command subject c => (.outcome (w.command subject c).1, (w.command subject c).2)
  | .step dt => (.silence, w.step dt)
  | .setTile t c => w.attempt (w.setTile? t c)

/-- The world after a history. -/
def after (w : GridWorld) : List Change → GridWorld
  | [] => w
  | c :: cs => (w.change c).2.after cs

/-- A history with the answers of the world. -/
def record (w : GridWorld) : List Change → List (Change × Answer)
  | [] => []
  | c :: cs => (c, (w.change c).1) :: (w.change c).2.record cs

theorem record_append (cs cs' : List Change) :
    ∀ w : GridWorld, w.record (cs ++ cs') = w.record cs ++ (w.after cs).record cs' := by
  induction cs with
  | nil => exact fun _ => rfl
  | cons c cs ih => exact fun w => congrArg _ (ih _)

/-- **What every change keeps holds after every history.** -/
theorem record_induction {P : List (Change × Answer) → GridWorld → Prop} {w : GridWorld}
    (start : P [] w)
    (step : ∀ past w c, P past w → P (past ++ [(c, (w.change c).1)]) (w.change c).2)
    (cs : List Change) : P (w.record cs) (w.after cs) := by
  have hfrom : ∀ past w, P past w → P (past ++ w.record cs) (w.after cs) := by
    induction cs with
    | nil =>
        intro past w h
        rw [record, List.append_nil]
        exact h
    | cons c cs ih =>
        intro past w h
        rw [record, List.append_cons]
        exact ih _ _ (step past w c h)
  exact hfrom [] w start

/-! ## The grid -/

/-- The two worlds have one grid. -/
structure SameGrid (w w' : GridWorld) : Prop where
  width : w'.width = w.width
  height : w'.height = w.height
  cells : w'.cells = w.cells

theorem sameGrid_change {w : GridWorld} {c : Change} (hc : ∀ t k, c ≠ .setTile t k) :
    SameGrid w (w.change c).2 := by
  cases c with
  | spawn | step => exact ⟨rfl, rfl, rfl⟩
  | remove id =>
      show SameGrid w ((w.remove? id).getD w)
      unfold remove?
      cases w.find? id <;> exact ⟨rfl, rfl, rfl⟩
  | edit id f =>
      show SameGrid w ((w.modify? id f).getD w)
      unfold modify?
      cases w.find? id <;> exact ⟨rfl, rfl, rfl⟩
  | command subject c =>
      have h := obeyed_command subject c w
      exact ⟨h.width, h.height, h.cells⟩
  | setTile t k => exact absurd rfl (hc t k)

/-! ## The actors -/

/-- The handles of the actors in a world. -/
def handles (w : GridWorld) : List ActorId := w.population.map Prod.fst

theorem isSome_find?_iff {w : GridWorld} {id : ActorId} :
    (w.find? id).isSome = true ↔ id ∈ w.handles := Keyed.isSome_lookup_iff

theorem find?_eq_none_iff {w : GridWorld} {id : ActorId} :
    w.find? id = none ↔ id ∉ w.handles := by
  rw [← isSome_find?_iff, Option.not_isSome_iff_eq_none]

theorem find?_spawn (w : GridWorld) (actor : Actor) (i : ActorId) :
    (w.spawn actor).2.find? i = if i = w.nextId then some actor else w.find? i :=
  Keyed.lookup_insert ..

theorem handles_remove? {w w' : GridWorld} {id : ActorId} (h : w.remove? id = some w') :
    w'.handles = w.handles.filter (· != id) := by
  obtain ⟨a, -, rfl⟩ := Option.map_eq_some_iff.mp h
  show (w.population.filter _).map Prod.fst = (w.population.map Prod.fst).filter _
  rw [List.filter_map]
  rfl

theorem find?_remove? {w w' : GridWorld} {id : ActorId} (h : w.remove? id = some w')
    (i : ActorId) : w'.find? i = if i = id then none else w.find? i := by
  obtain ⟨a, -, rfl⟩ := Option.map_eq_some_iff.mp h
  show (w.population.filter _).lookup i = _
  by_cases hi : i = id
  · rw [if_pos hi, List.lookup_eq_none_iff]
    intro entry hentry
    have hne := (List.mem_filter.mp hentry).2
    rw [hi, bne_comm]
    exact hne
  · rw [if_neg hi]
    show _ = w.population.lookup i
    induction w.population with
    | nil => rfl
    | cons entry rest ih =>
        obtain ⟨j, b⟩ := entry
        by_cases hj : j = id
        · rw [List.filter_cons_of_neg (by simp [hj]), ih, Keyed.lookup_cons_eq_ite,
            if_neg (fun hij => hi (hij.trans hj))]
        · rw [List.filter_cons_of_pos (by simp [hj]), Keyed.lookup_cons_eq_ite,
            Keyed.lookup_cons_eq_ite, ih]

theorem find?_step (w : GridWorld) (dt : Number) (i : ActorId) :
    (w.step dt).find? i = (w.find? i).map (walk dt) := by
  show (w.population.map _).lookup i = (w.population.lookup i).map _
  induction w.population with
  | nil => rfl
  | cons entry rest ih =>
      obtain ⟨j, a⟩ := entry
      rw [List.map_cons, Keyed.lookup_cons_eq_ite, Keyed.lookup_cons_eq_ite, ih]
      split <;> rfl

theorem handles_update (w : GridWorld) (id : ActorId) (f : Actor → Actor) :
    (w.update id f).handles = w.handles := by
  show (w.population.map _).map Prod.fst = _
  rw [List.map_map]
  rfl

theorem handles_step (w : GridWorld) (dt : Number) : (w.step dt).handles = w.handles := by
  show (w.population.map _).map Prod.fst = _
  rw [List.map_map]
  rfl

/-- **Only `spawn` and `remove` touch the handles.** -/
theorem handles_change {w : GridWorld} {c : Change} (hspawn : ∀ a, c ≠ .spawn a)
    (hremove : ∀ id, c ≠ .remove id) :
    (w.change c).2.handles = w.handles ∧ (w.change c).2.nextId = w.nextId := by
  cases c with
  | spawn a => exact absurd rfl (hspawn a)
  | remove id => exact absurd rfl (hremove id)
  | edit id f =>
      show ((w.modify? id f).getD w).handles = _ ∧ ((w.modify? id f).getD w).nextId = _
      unfold modify?
      cases w.find? id with
      | none => exact ⟨rfl, rfl⟩
      | some a => exact ⟨handles_update w id f, rfl⟩
  | command subject c =>
      have h := obeyed_command subject c w
      exact ⟨h.handles, h.nextId⟩
  | step dt => exact ⟨handles_step w dt, rfl⟩
  | setTile t k =>
      show ((w.setTile? t k).getD w).handles = _ ∧ ((w.setTile? t k).getD w).nextId = _
      unfold setTile?
      cases w.cellIndex? t <;> exact ⟨rfl, rfl⟩

/-- The handle that a change is about, if it is about one. -/
def Change.subject? (w : GridWorld) : Change → Option ActorId
  | .spawn _ => some w.nextId
  | .remove id | .edit id _ | .command id _ => some id
  | .step _ | .setTile _ _ => none

/-- **A change leaves the actors alone that it is not about**, unless time passes. -/
theorem find?_change {w : GridWorld} {c : Change} {i : ActorId}
    (hstep : ∀ dt, c ≠ .step dt) (hi : c.subject? w ≠ some i) :
    (w.change c).2.find? i = w.find? i := by
  cases c with
  | spawn a => exact (find?_spawn w a i).trans (if_neg fun h => hi (congrArg some h.symm))
  | remove id =>
      show ((w.remove? id).getD w).find? i = _
      cases h : w.remove? id with
      | none => rfl
      | some w' =>
          exact (find?_remove? h i).trans (if_neg fun h => hi (congrArg some h.symm))
  | edit id f =>
      have hne : i ≠ id := fun h => hi (congrArg some h.symm)
      show ((w.modify? id f).getD w).find? i = _
      unfold modify?
      cases w.find? id with
      | none => rfl
      | some a =>
          show (w.update id f).find? i = _
          rw [find?_update]
          simp only [hne, if_false, Option.map_id']
  | command subject c =>
      exact (obeyed_command subject c w).others i fun h => hi (congrArg some h.symm)
  | step dt => exact absurd rfl (hstep dt)
  | setTile t k =>
      show ((w.setTile? t k).getD w).find? i = _
      unfold setTile?
      cases w.cellIndex? t <;> rfl

end GridWorld

end ActorScript
