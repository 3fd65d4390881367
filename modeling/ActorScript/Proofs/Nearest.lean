import ActorScript.GridWorld.Listed
import ActorScript.Proofs.TotalOrder

/-!
# The closest actor ahead

`World.closestAhead?` goes once through what the world lists and keeps the closest actor
so far.  How distances are measured is left open.  They need not be in order: one of them
may be no number, and then it is neither closer nor further than any other.  So what the
search keeps is stated in terms of "not closer" only.

## Main results

* `Foremost.pass`, `Foremost.closer` — what one step of the search keeps.
* `nearestBy?_foremost` — what it finds.
* `nearest_is_first_closest` — the same in terms of the actors in the world, for every
  measure, and in any order in which the world might list them.
-/

namespace ActorScript

/-! ## Comparing distances -/

namespace Number

variable {a b c : Number}

theorem lt_irrefl (a : Number) : ¬ a < a :=
  fun h => Int.lt_irrefl _ (lt_iff_position.mp h).2.2

theorem lt_trans (hab : a < b) (hbc : b < c) : a < c := by
  obtain ⟨ha, -, hab⟩ := lt_iff_position.mp hab
  obtain ⟨-, hc, hbc⟩ := lt_iff_position.mp hbc
  exact lt_iff_position.mpr ⟨ha, hc, Int.lt_trans hab hbc⟩

theorem lt_of_equal_of_lt (hab : a.equal b = true) (hbc : b < c) : a < c := by
  obtain ⟨ha, -, hab⟩ := equal_iff_position.mp hab
  obtain ⟨-, hc, hbc⟩ := lt_iff_position.mp hbc
  exact lt_iff_position.mpr ⟨ha, hc, hab ▸ hbc⟩

theorem equal_symm (h : a.equal b = true) : b.equal a = true := by
  obtain ⟨ha, hb, hab⟩ := equal_iff_position.mp h
  exact equal_iff_position.mpr ⟨hb, ha, hab.symm⟩

/-- Of two numbers one is less, or they are equal. -/
theorem lt_or_equal_or_lt (ha : a.isNaN = false) (hb : b.isNaN = false) :
    a < b ∨ a.equal b = true ∨ b < a := by
  rw [lt_iff_position, equal_iff_position, lt_iff_position]
  rcases Int.lt_trichotomy a.position b.position with h | h | h
  · exact .inl ⟨ha, hb, h⟩
  · exact .inr (.inl ⟨ha, hb, h⟩)
  · exact .inr (.inr ⟨hb, ha, h⟩)

theorem le_of_lt_or_equal (h : a < b ∨ a.equal b = true) : a ≤ b := by
  rw [le_iff_view]
  rcases h with h | h
  · rw [lt_iff_view.mp h]
    rfl
  · have heq := equal_iff_position.mp h
    rw [← Int.compare_eq_eq] at heq
    rw [compare_view_eq_some.mpr heq]
    rfl

end Number

namespace World

/-! ## The search -/

/-- What is found in a list of actors, some of which have a distance: the first of the
closest. `none` of them is found if none has a distance. -/
def Foremost (distance? : ActorId → Option Number) (ids : List ActorId) :
    Option (Number × ActorId) → Prop
  | none => ∀ id ∈ ids, distance? id = none
  | some (d, r) => distance? r = some d ∧
      (∀ id ∈ ids, ∀ e, distance? id = some e → ¬ e < d) ∧
      ∃ before after, ids = before ++ r :: after ∧ r ∉ before ∧
        ∀ id ∈ before, ∀ e, distance? id = some e → e.equal d = false

section Search

variable {distance? : ActorId → Option Number} {ids : List ActorId}
  {best : Option (Number × ActorId)} {id : ActorId}

/-- An actor without a distance changes nothing. -/
theorem Foremost.pass (h : Foremost distance? ids best) (hid : distance? id = none) :
    Foremost distance? (ids ++ [id]) best := by
  match best with
  | none => exact List.forall_mem_append.mpr ⟨h, List.forall_mem_singleton.mpr hid⟩
  | some (d, r) =>
      obtain ⟨hr, hmin, before, after, rfl, hfirst, hties⟩ := h
      refine ⟨hr, List.forall_mem_append.mpr ⟨hmin, List.forall_mem_singleton.mpr ?_⟩,
        before, after ++ [id], by simp, hfirst, hties⟩
      intro e he
      cases hid.symm.trans he

/-- **An actor with a distance** is kept if it is strictly closer than the best so far. -/
theorem Foremost.closer (h : Foremost distance? ids best) {e : Number}
    (he : distance? id = some e) :
    Foremost distance? (ids ++ [id]) (closer best e id) := by
  have hself : ∀ i ∈ [id], ∀ e', distance? i = some e' → ¬ e' < e := by
    refine List.forall_mem_singleton.mpr fun e' he' => ?_
    cases he.symm.trans he'
    exact Number.lt_irrefl e
  match best with
  | none =>
      have hnone : ∀ i ∈ ids, ∀ e', distance? i ≠ some e' := fun i hi e' he' => by
        cases (h i hi).symm.trans he'
      exact ⟨he, List.forall_mem_append.mpr
          ⟨fun i hi e' he' => absurd he' (hnone i hi e'), hself⟩,
        ids, [], rfl, fun hi => hnone id hi e he, fun i hi e' he' =>
          absurd he' (hnone i hi e')⟩
  | some (d, r) =>
      obtain ⟨hr, hmin, before, after, hids, hfirst, hties⟩ := h
      unfold World.closer
      dsimp only
      split
      · rename_i hlt
        -- nobody so far is closer than the old best, let alone than the new one
        have hfurther : ∀ i ∈ ids, ∀ e', distance? i = some e' → ¬ e' < e :=
          fun i hi e' he' hlt' => hmin i hi e' he' (Number.lt_trans hlt' hlt)
        have hties : ∀ i ∈ ids, ∀ e', distance? i = some e' → e'.equal e = false :=
          fun i hi e' he' => Bool.eq_false_iff.mpr fun heq =>
            hmin i hi e' he' (Number.lt_of_equal_of_lt heq hlt)
        exact ⟨he, List.forall_mem_append.mpr ⟨hfurther, hself⟩, ids, [], rfl,
          fun hi => hmin id hi e he hlt, hties⟩
      · rename_i hnlt
        refine ⟨hr, List.forall_mem_append.mpr ⟨hmin, List.forall_mem_singleton.mpr ?_⟩,
          before, after ++ [id], by simp [hids], hfirst, hties⟩
        intro e' he'
        cases he.symm.trans he'
        exact hnlt

/-- **The whole search.** -/
theorem Foremost.foldl (rest : List ActorId) : ∀ {ids best}, Foremost distance? ids best →
    Foremost distance? (ids ++ rest) (rest.foldl (fun best id =>
      match distance? id with
      | some d => World.closer best d id
      | none => best) best) := by
  induction rest with
  | nil =>
      intro ids best h
      rw [List.append_nil]
      exact h
  | cons id rest ih =>
      intro ids best h
      rw [List.append_cons, List.foldl_cons]
      cases hid : distance? id with
      | none => exact ih (h.pass hid)
      | some e => exact ih (h.closer hid)

end Search

/-! ## The actors in the world -/

section Measure

variable {hypot : Number → Number → Number} {W W' : Type} [World W] [World W'] {w : W}
  {w' : W'} {start : ActorId} {direction : Direction} {kind : Option ActorKind}

/-- The actor `id` is another one than `start`, and lies strictly in the direction from
it, at the distance `d`. -/
def AheadAt (hypot : Number → Number → Number) (w : W) (start : ActorId)
    (direction : Direction) (id : ActorId) (d : Number) : Prop :=
  id ≠ start ∧ ∃ origin other, actor? w start = some origin ∧ actor? w id = some other ∧
    ahead (other.x - origin.x) (other.y - origin.y) direction = true ∧
    d = hypot (other.x - origin.x) (other.y - origin.y)

theorem distanceAhead?_eq_some_iff {origin : Actor}
    (horigin : actor? w start = some origin) {id : ActorId} {d : Number} :
    distanceAhead? hypot (actor? w) start origin direction id = some d ↔
      AheadAt hypot w start direction id d := by
  unfold distanceAhead? AheadAt
  by_cases hid : id = start
  · rw [if_pos hid]
    exact ⟨nofun, fun h => absurd hid h.1⟩
  · rw [if_neg hid]
    cases hother : actor? w id with
    | none =>
        refine ⟨nofun, ?_⟩
        rintro ⟨-, _, _, -, hnone, -⟩
        cases hnone
    | some other =>
        show (if ahead _ _ direction = true then some _ else none) = some d ↔ _
        constructor
        · intro h
          split at h
          · rename_i hahead
            cases h
            exact ⟨hid, origin, other, horigin, rfl, hahead, rfl⟩
          · cases h
        · rintro ⟨-, origin', other', horigin', ⟨⟩, hahead, rfl⟩
          cases horigin.symm.trans horigin'
          exact if_pos hahead

/-- The search goes through what the world lists. -/
theorem nearestBy?_foremost {origin : Actor} (horigin : actor? w start = some origin)
    (hypot : Number → Number → Number) (direction : Direction) (kind : Option ActorKind) :
    ∃ best, nearestBy? hypot w start direction kind = best.map Prod.snd ∧
      Foremost (distanceAhead? hypot (actor? w) start origin direction)
        (actors w kind) best := by
  unfold nearestBy? closestAhead?
  rw [horigin]
  have hstart : Foremost (distanceAhead? hypot (actor? w) start origin direction)
    [] none := nofun
  exact ⟨_, rfl, hstart.foldl (actors w kind)⟩

/-- An actor that the world lists and that lies ahead, at the distance `d`. -/
def Candidate (hypot : Number → Number → Number) (w : W) (start : ActorId)
    (direction : Direction) (kind : Option ActorKind) (id : ActorId)
    (d : Number) : Prop :=
  id ∈ actors w kind ∧ AheadAt hypot w start direction id d

/-- The actor `r` at the distance `d` is a candidate, no candidate is strictly closer, and
none that is listed before it is at the same distance. -/
structure FirstClosest (hypot : Number → Number → Number) (w : W) (start : ActorId)
    (direction : Direction) (kind : Option ActorKind) (r : ActorId)
    (d : Number) : Prop where
  candidate : Candidate hypot w start direction kind r d
  closest : ∀ id e, Candidate hypot w start direction kind id e → ¬ e < d
  first : ∃ before after, actors w kind = before ++ r :: after ∧ r ∉ before ∧
    ∀ id ∈ before, ∀ e, AheadAt hypot w start direction id e → e.equal d = false

/-- **What the search comes back with**: nothing if there is no candidate, and the first
of the closest candidates otherwise. -/
theorem nearestBy?_cases (hypot : Number → Number → Number) (w : W) (start : ActorId)
    (direction : Direction) (kind : Option ActorKind) :
    (nearestBy? hypot w start direction kind = none ∧
        ∀ id d, ¬ Candidate hypot w start direction kind id d) ∨
      ∃ r d, nearestBy? hypot w start direction kind = some r ∧
        FirstClosest hypot w start direction kind r d := by
  cases horigin : actor? w start with
  | none =>
      refine .inl ⟨?_, fun id d hcandidate => ?_⟩
      · rw [nearestBy?, closestAhead?, horigin]
        rfl
      · obtain ⟨-, -, origin, -, hsome, -⟩ := hcandidate
        cases horigin.symm.trans hsome
  | some origin =>
      have hiff : ∀ {id d},
        distanceAhead? hypot (actor? w) start origin direction id = some d ↔
          AheadAt hypot w start direction id d := distanceAhead?_eq_some_iff horigin
      obtain ⟨best, hnearest, hbest⟩ := nearestBy?_foremost horigin hypot direction kind
      match best with
      | none =>
          refine .inl ⟨hnearest, fun id d hcandidate => ?_⟩
          cases (hbest id hcandidate.1).symm.trans (hiff.mpr hcandidate.2)
      | some (d, r) =>
          obtain ⟨hr, hmin, before, after, hids, hfirst, hties⟩ := hbest
          refine .inr ⟨r, d, hnearest, ⟨?_, hiff.mp hr⟩, ?_, before, after,
            hids, hfirst, ?_⟩
          · rw [hids]
            exact List.mem_append_right _ (List.mem_cons_self ..)
          · exact fun id e hcandidate => hmin id hcandidate.1 e (hiff.mpr hcandidate.2)
          · exact fun id hid e hahead => hties id hid e (hiff.mpr hahead)

theorem nearestBy?_eq_none_iff :
    nearestBy? hypot w start direction kind = none ↔
      ∀ id d, ¬ Candidate hypot w start direction kind id d := by
  rcases nearestBy?_cases hypot w start direction kind with ⟨hnone, hno⟩ | ⟨r, d, hr, h⟩
  · exact iff_of_true hnone hno
  · refine iff_of_false (fun hnone => ?_) fun hno => hno r d h.candidate
    cases hnone.symm.trans hr

theorem firstClosest_of_nearestBy? {r : ActorId}
    (hr : nearestBy? hypot w start direction kind = some r) :
    ∃ d, FirstClosest hypot w start direction kind r d := by
  rcases nearestBy?_cases hypot w start direction kind with ⟨hnone, -⟩ | ⟨r', d, hr', h⟩
  · cases hnone.symm.trans hr
  · cases hr'.symm.trans hr
    exact ⟨d, h⟩

/-! ## Distances in order -/

/-- No candidate is at a distance that is no number. -/
def Measured (hypot : Number → Number → Number) (w : W) (start : ActorId)
    (direction : Direction) (kind : Option ActorKind) : Prop :=
  ∀ id d, Candidate hypot w start direction kind id d → d.isNaN = false

/-- Where the distances are numbers, "not closer" is "at least as far", and what is not at
the same distance is further. -/
theorem FirstClosest.earliest {r : ActorId} {d : Number}
    (h : FirstClosest hypot w start direction kind r d)
    (hm : Measured hypot w start direction kind) :
    (∀ id e, Candidate hypot w start direction kind id e → d ≤ e) ∧
      ∃ before after, actors w kind = before ++ r :: after ∧ r ∉ before ∧
        ∀ id ∈ before, ∀ e, AheadAt hypot w start direction id e → d < e := by
  have hd := hm r d h.candidate
  have hmin : ∀ id e, Candidate hypot w start direction kind id e →
      d < e ∨ d.equal e = true := by
    intro id e hcandidate
    rcases Number.lt_or_equal_or_lt hd (hm id e hcandidate) with hlt | heq | hgt
    · exact .inl hlt
    · exact .inr heq
    · exact absurd hgt (h.closest id e hcandidate)
  refine ⟨fun id e hcandidate => Number.le_of_lt_or_equal (hmin id e hcandidate), ?_⟩
  obtain ⟨before, after, hids, hfirst, hties⟩ := h.first
  refine ⟨before, after, hids, hfirst, fun id hid e hahead => ?_⟩
  have hmem : id ∈ actors w kind := hids ▸ List.mem_append_left _ hid
  refine (hmin id e ⟨hmem, hahead⟩).resolve_right fun heq => ?_
  cases (hties id hid e hahead).symm.trans (Number.equal_symm heq)

theorem candidate_congr (hactor : ∀ id, actor? w' id = actor? w id)
    (hperm : (actors w' kind).Perm (actors w kind)) {id : ActorId} {d : Number} :
    Candidate hypot w' start direction kind id d ↔
      Candidate hypot w start direction kind id d := by
  unfold Candidate AheadAt
  simp only [hperm.mem_iff, hactor]

/-- **Another order of the list** leads to a candidate at the same distance. -/
theorem nearestBy?_of_perm (hm : Measured hypot w start direction kind)
    (hactor : ∀ id, actor? w' id = actor? w id)
    (hperm : (actors w' kind).Perm (actors w kind)) :
    Option.Rel (fun r r' => ∃ d d', Candidate hypot w start direction kind r d ∧
        Candidate hypot w start direction kind r' d' ∧ d.equal d' = true)
      (nearestBy? hypot w start direction kind)
      (nearestBy? hypot w' start direction kind) := by
  have hiff : ∀ {id d}, Candidate hypot w' start direction kind id d ↔
      Candidate hypot w start direction kind id d := candidate_congr hactor hperm
  rcases nearestBy?_cases hypot w start direction kind with ⟨hnone, hno⟩ | ⟨r, d, hr, h⟩
  · rcases nearestBy?_cases hypot w' start direction kind with
      ⟨hnone', -⟩ | ⟨r', d', -, h'⟩
    · rw [hnone, hnone']
      exact .none
    · exact absurd (hiff.mp h'.candidate) (hno r' d')
  · rcases nearestBy?_cases hypot w' start direction kind with
      ⟨-, hno'⟩ | ⟨r', d', hr', h'⟩
    · exact absurd (hiff.mpr h.candidate) (hno' r d)
    · rw [hr, hr']
      have hr'd' := hiff.mp h'.candidate
      refine .some ⟨d, d', h.candidate, hr'd', ?_⟩
      rcases Number.lt_or_equal_or_lt (hm r d h.candidate) (hm r' d' hr'd') with
        hlt | heq | hgt
      · exact absurd hlt (h'.closest r d (hiff.mpr h.candidate))
      · exact heq
      · exact absurd hgt (h.closest r' d' hr'd')

/--
**The first of the closest actors ahead.**  In any world, whatever it lists and however
distances are measured, the search comes back with nothing exactly if there is no
candidate, as when the actor that looks is not there itself.  Otherwise it finds a
candidate that no candidate is strictly closer than, and none that is listed before it is
at the same distance.  So where all distances are numbers it finds the earliest of the
candidates at the least distance, and in another order of the list it finds one at the
same distance.  This search is the `nearest?` of a grid world and of a world with lists of
its own.
-/
theorem nearest_is_first_closest (hypot : Number → Number → Number) (w : W)
    (start : ActorId) (direction : Direction) (kind : Option ActorKind) :
    (actor? w start = none → nearestBy? hypot w start direction kind = none) ∧
    (nearestBy? hypot w start direction kind = none ↔
      ∀ id d, ¬ Candidate hypot w start direction kind id d) ∧
    (∀ r, nearestBy? hypot w start direction kind = some r →
      ∃ d, FirstClosest hypot w start direction kind r d) ∧
    (Measured hypot w start direction kind →
      (∀ r, nearestBy? hypot w start direction kind = some r →
        ∃ d, Candidate hypot w start direction kind r d ∧
          (∀ id e, Candidate hypot w start direction kind id e → d ≤ e) ∧
          ∃ before after, actors w kind = before ++ r :: after ∧ r ∉ before ∧
            ∀ id ∈ before, ∀ e, AheadAt hypot w start direction id e → d < e) ∧
      ∀ (W' : Type) [World W'] (w' : W'), (∀ id, actor? w' id = actor? w id) →
        (actors w' kind).Perm (actors w kind) →
        Option.Rel (fun r r' => ∃ d d', Candidate hypot w start direction kind r d ∧
            Candidate hypot w start direction kind r' d' ∧ d.equal d' = true)
          (nearestBy? hypot w start direction kind)
          (nearestBy? hypot w' start direction kind)) ∧
    (∀ g : GridWorld, nearest? g start direction kind =
      nearestBy? Number.hypot g start direction kind) ∧
    (∀ g : ListedWorld, nearest? g start direction kind =
      nearestBy? Number.hypot g start direction kind) := by
  refine ⟨fun hstart => ?_, nearestBy?_eq_none_iff,
    fun r hr => firstClosest_of_nearestBy? hr,
    fun hm => ⟨fun r hr => ?_,
      fun W' _ w' hactor hperm => nearestBy?_of_perm hm hactor hperm⟩,
    fun _ => rfl, fun _ => rfl⟩
  · refine nearestBy?_eq_none_iff.mpr fun id d hcandidate => ?_
    obtain ⟨-, -, origin, -, horigin, -⟩ := hcandidate
    cases hstart.symm.trans horigin
  · obtain ⟨d, h⟩ := firstClosest_of_nearestBy? hr
    exact ⟨d, h.candidate, h.earliest hm⟩

end Measure

/-- Two enemies to the right of a player at the same distance, one of whom is listed
twice, an enemy to the left, and a handle of nobody. -/
def bystanders : ListedWorld where
  grid := [(.player, 0), (.enemy, 3), (.enemy, 3), (.enemy, -1)].foldl
    (fun w (kind, x) => (w.spawn { kind, x := .ofInt x, y := .zero }).2) (.empty 4 1)
  actorList := some [9, 4, 3, 1, 2, 3]

/-- The same, listed in another order. -/
def bystandersReordered : ListedWorld :=
  { bystanders with actorList := some [2, 3, 1, 3, 4, 9] }

theorem measured_bystanders :
    Measured Number.hypot bystanders 1 .right (some .enemy) := by
  rintro id d ⟨hid, hahead⟩
  obtain ⟨origin, horigin⟩ : ∃ origin, actor? bystanders 1 = some origin := ⟨_, rfl⟩
  have hall : ∀ origin ∈ actor? bystanders 1, ∀ id ∈ actors bystanders (some .enemy),
      ∀ d ∈ distanceAhead? Number.hypot (actor? bystanders) 1 origin .right id,
        d.isNaN = false := by
    decide +kernel
  exact hall origin horigin id hid d ((distanceAhead?_eq_some_iff horigin).mpr hahead)

/-- The first one listed of the two is found; in another order it is the other one, which
is at the same distance. -/
theorem nearest_is_first_closest_bystanders :
    nearest? bystanders 1 .right (some .enemy) = some 3 ∧
      (∃ d, FirstClosest Number.hypot bystanders 1 .right (some .enemy) 3 d) ∧
      nearest? bystandersReordered 1 .right (some .enemy) = some 2 ∧
      ∃ d d', Candidate Number.hypot bystanders 1 .right (some .enemy) 3 d ∧
        Candidate Number.hypot bystanders 1 .right (some .enemy) 2 d' ∧
        d.equal d' = true := by
  have hnearest : nearest? bystanders 1 .right (some .enemy) = some 3 := by decide +kernel
  have hreordered : nearest? bystandersReordered 1 .right (some .enemy) = some 2 := by
    decide +kernel
  obtain ⟨-, -, hfirst, hmeasured, -, hsearch⟩ :=
    nearest_is_first_closest Number.hypot bystanders 1 .right (some .enemy)
  have hperm : (actors bystandersReordered (some .enemy)).Perm
      (actors bystanders (some .enemy)) := by decide +kernel
  have hrel :=
    (hmeasured measured_bystanders).2 _ bystandersReordered (fun _ => rfl) hperm
  rw [← hsearch, ← hsearch, hnearest, hreordered, Option.rel_some_some] at hrel
  exact ⟨hnearest, hfirst 3 ((hsearch bystanders).symm.trans hnearest), hreordered, hrel⟩

end World

end ActorScript
