import ActorScript.Proofs.Histories
import ActorScript.Proofs.Listing

/-!
# The grid as an array

The tiles of a grid world lie row by row in one array of cells, and the place of a tile is
worked out from its coordinates.  This module shows that the array serves as a table with
two indices: different tiles have different places, every place is one of a cell, and the
enumeration of the tiles, which knows nothing of the cells, meets the same tiles.

## Main results

* `cellIndex?_eq_some_iff` — which place a tile has.
* `tileClass?_setTile?` — a tile that is set is read back, and no other tile changes.
* `grid_is_array` — both over all histories, with the bounds that 32-bit arithmetic needs.
-/

namespace ActorScript

/-- The tile lies on a grid with these sides, one corner of which is the tile `(0, 0)`. -/
def Tile.Within (width height : Int) (t : Tile) : Prop :=
  0 ≤ t.x ∧ t.x < width ∧ 0 ≤ t.y ∧ t.y < height

instance (width height : Int) (t : Tile) : Decidable (t.Within width height) :=
  inferInstanceAs (Decidable (0 ≤ t.x ∧ t.x < width ∧ 0 ≤ t.y ∧ t.y < height))

/-- The tiles of a grid are those with a column and a row. -/
theorem Tile.within_iff {width height : Nat} {t : Tile} :
    t.Within width height ↔ ∃ x y : Nat, t = ⟨x, y⟩ ∧ x < width ∧ y < height := by
  constructor
  · rintro ⟨hx, hxw, hy, hyh⟩
    obtain ⟨x, hx⟩ := Int.eq_ofNat_of_zero_le hx
    obtain ⟨y, hy⟩ := Int.eq_ofNat_of_zero_le hy
    exact ⟨x, y, by cases t; simp_all, by omega, by omega⟩
  · rintro ⟨x, y, rfl, hx, hy⟩
    exact ⟨Int.natCast_nonneg x, Int.ofNat_lt.mpr hx, Int.natCast_nonneg y,
      Int.ofNat_lt.mpr hy⟩

/-- The number can be held in 32 bits, one of which is the sign. -/
def FitsInt32 (n : Int) : Prop := Int32.minValue.toInt ≤ n ∧ n ≤ Int32.maxValue.toInt

namespace GridWorld

/-! ## Places -/

/-- Row by row, the last cell of a row comes before the first one of the next row. -/
theorem place_lt {width height x y : Nat} (hx : x < width) (hy : y < height) :
    y * width + x < width * height :=
  calc y * width + x < y * width + width := Nat.add_lt_add_left hx _
    _ = (y + 1) * width := (Nat.succ_mul y width).symm
    _ ≤ height * width := Nat.mul_le_mul_right width hy
    _ = width * height := Nat.mul_comm height width

/-- A place is that of one column and one row. -/
theorem place_injective {width x y x' y' : Nat} (hx : x < width) (hx' : x' < width)
    (h : y * width + x = y' * width + x') : x = x' ∧ y = y' := by
  have hwidth : 0 < width := Nat.zero_lt_of_lt hx
  have hcolumn : (y * width + x) % width = x := by
    rw [Nat.mul_add_mod', Nat.mod_eq_of_lt hx]
  have hcolumn' : (y' * width + x') % width = x' := by
    rw [Nat.mul_add_mod', Nat.mod_eq_of_lt hx']
  have hxx : x = x' := by
    rw [← hcolumn, ← hcolumn', h]
  refine ⟨hxx, ?_⟩
  rw [hxx] at h
  exact Nat.eq_of_mul_eq_mul_right hwidth (Nat.add_right_cancel h)

variable {w w' : GridWorld} {t : Tile}

theorem cellIndex?_eq_some_iff {i : Nat} :
    w.cellIndex? t = some i ↔
      ∃ x y : Nat, t = ⟨x, y⟩ ∧ x < w.width ∧ y < w.height ∧ i = y * w.width + x := by
  unfold cellIndex?
  constructor
  · intro h
    split at h
    · rename_i hwithin
      obtain ⟨x, y, rfl, hx, hy⟩ := Tile.within_iff.mp hwithin
      refine ⟨x, y, rfl, hx, hy, ?_⟩
      cases h
      exact Int.toNat_natCast (y * w.width + x)
    · cases h
  · rintro ⟨x, y, rfl, hx, hy, rfl⟩
    have hwithin : Tile.Within w.width w.height ⟨x, y⟩ :=
      Tile.within_iff.mpr ⟨x, y, rfl, hx, hy⟩
    exact (if_pos hwithin).trans (congrArg some (Int.toNat_natCast (y * w.width + x)))

theorem isSome_cellIndex?_iff :
    (w.cellIndex? t).isSome = true ↔ t.Within w.width w.height := by
  unfold cellIndex? Tile.Within
  split <;> simp [*]

/-- There are as many cells as the sides of the grid ask for. -/
def Filled (w : GridWorld) : Prop := w.cells.size = w.width * w.height

theorem lt_size_of_cellIndex? {i : Nat} (h : w.Filled) (hi : w.cellIndex? t = some i) :
    i < w.cells.size := by
  obtain ⟨x, y, -, hx, hy, rfl⟩ := cellIndex?_eq_some_iff.mp hi
  rw [h]
  exact place_lt hx hy

/-- **Setting a tile** changes its own class and that of no other tile. -/
theorem tileClass?_setTile? {c : TileClass} (h : w.Filled)
    (hset : w.setTile? t c = some w') (s : Tile) :
    w'.tileClass? s = if s = t then some c else w.tileClass? s := by
  obtain ⟨i, hi, rfl⟩ := Option.map_eq_some_iff.mp hset
  have hlt := lt_size_of_cellIndex? h hi
  show (do (w.cells.setIfInBounds i c)[← w.cellIndex? s]?) = _
  cases hs : w.cellIndex? s with
  | none =>
      have hne : s ≠ t := by
        rintro rfl
        cases hi.symm.trans hs
      rw [if_neg hne, tileClass?, hs]
      rfl
  | some j =>
      show (w.cells.setIfInBounds i c)[j]? = _
      rw [Array.getElem?_setIfInBounds]
      by_cases hst : s = t
      · subst hst
        cases hi.symm.trans hs
        rw [if_pos rfl, if_pos rfl, if_pos hlt]
      · obtain ⟨x, y, rfl, hx, -, rfl⟩ := cellIndex?_eq_some_iff.mp hi
        obtain ⟨x', y', rfl, hx', -, rfl⟩ := cellIndex?_eq_some_iff.mp hs
        have hij : y * w.width + x ≠ y' * w.width + x' := by
          intro hplace
          obtain ⟨rfl, rfl⟩ := place_injective hx hx' hplace
          exact hst rfl
        rw [if_neg hij, if_neg hst, tileClass?, hs]
        rfl

/-! ## The enumeration of the tiles -/

theorem mem_tiles_iff : t ∈ w.tiles ↔ t.Within w.width w.height := by
  unfold tiles
  rw [Tile.within_iff]
  simp only [List.mem_flatMap, List.mem_map, List.mem_range]
  constructor
  · rintro ⟨y, hy, x, hx, rfl⟩
    exact ⟨x, y, rfl, hx, hy⟩
  · rintro ⟨x, y, rfl, hx, hy⟩
    exact ⟨y, hy, x, hx, rfl⟩

/-- **The tiles come row by row**, and in a row from left to right. -/
theorem pairwise_tiles (w : GridWorld) : w.tiles.Pairwise Tile.Before := by
  refine List.pairwise_flatMap.mpr ⟨fun y _ => ?_, ?_⟩
  · rw [List.pairwise_map]
    exact List.pairwise_lt_range.imp fun hlt => .inr ⟨rfl, Int.ofNat_lt.mpr hlt⟩
  · refine List.pairwise_lt_range.imp fun hlt s hs t ht => .inl ?_
    obtain ⟨x, -, rfl⟩ := List.mem_map.mp hs
    obtain ⟨x', -, rfl⟩ := List.mem_map.mp ht
    exact Int.ofNat_lt.mpr hlt

/-- A loop over the tiles finds nothing to sort. -/
theorem enumerate_tiles (w : GridWorld) :
    Selector.tiles.enumerate w = w.tiles.map .tile := by
  have hsorted : w.tiles.Pairwise fun s t => s.rowMajorLE t = true := by
    refine (pairwise_tiles w).imp fun h => Tile.rowMajorLE_iff.mpr ?_
    unfold Tile.Before at h
    omega
  exact congrArg _ (List.mergeSort_of_pairwise hsorted)

/-! ## Histories -/

/-- The class that a change has given to a tile, if it has been about the tile and there
was such a tile. -/
def classSet? (t : Tile) : Change × Answer → Option TileClass
  | (.setTile s c, .found true) => if s = t then some c else none
  | _ => none

/-- The class that a tile has been given last; it is empty if it has been given none. -/
def lastClass (past : List (Change × Answer)) (t : Tile) : TileClass :=
  (past.filterMap (classSet? t)).getLast?.getD .empty

theorem lastClass_append (past : List (Change × Answer))
    (e : Change × Answer) (t : Tile) :
    lastClass (past ++ [e]) t = (classSet? t e).getD (lastClass past t) := by
  unfold lastClass
  rw [List.filterMap_append, List.getLast?_append]
  cases h : classSet? t e <;> simp [h]

/-- A world whose grid has the given sides and holds what the record says. -/
structure Holds (width height : Nat) (past : List (Change × Answer)) (w : GridWorld) :
    Prop where
  width_eq : w.width = width
  height_eq : w.height = height
  filled : w.Filled
  class_eq : ∀ t, t.Within width height → w.tileClass? t = some (lastClass past t)

theorem holds_empty {width height : Int} (h : width.toNat * height.toNat ≤ maxCells) :
    Holds width.toNat height.toNat [] (empty width height) := by
  have hfilled : (empty width height).Filled := by
    show (Array.replicate _ _).size = _
    rw [Array.size_replicate]
    exact Nat.min_eq_left h
  refine ⟨rfl, rfl, hfilled, fun t ht => ?_⟩
  obtain ⟨i, hi⟩ : ∃ i, (empty width height).cellIndex? t = some i :=
    Option.isSome_iff_exists.mp (isSome_cellIndex?_iff.mpr ht)
  have hlt := lt_size_of_cellIndex? hfilled hi
  rw [tileClass?, hi]
  show (Array.replicate _ TileClass.empty)[i]? = _
  rw [Array.getElem?_replicate, if_pos (by rwa [empty, Array.size_replicate] at hlt)]
  rfl

/-- A change that leaves the grid alone. -/
theorem Holds.of_sameGrid {width height : Nat} {past : List (Change × Answer)}
    {e : Change × Answer} (h : Holds width height past w) (hgrid : SameGrid w w')
    (he : ∀ t, classSet? t e = none) : Holds width height (past ++ [e]) w' := by
  refine ⟨hgrid.width.trans h.width_eq, hgrid.height.trans h.height_eq, ?_,
    fun t ht => ?_⟩
  · unfold Filled
    rw [hgrid.width, hgrid.height, hgrid.cells]
    exact h.filled
  · rw [lastClass_append, he, Option.getD_none, ← h.class_eq t ht]
    unfold tileClass? cellIndex?
    rw [hgrid.width, hgrid.height, hgrid.cells]

theorem Holds.change {width height : Nat} {past : List (Change × Answer)}
    (h : Holds width height past w) (c : Change) :
    Holds width height (past ++ [(c, (w.change c).1)]) (w.change c).2 := by
  cases c with
  | setTile t k =>
      show Holds width height (past ++ [(_, .found (w.setTile? t k).isSome)])
        ((w.setTile? t k).getD w)
      cases hset : w.setTile? t k with
      | none => exact h.of_sameGrid ⟨rfl, rfl, rfl⟩ fun _ => rfl
      | some w' =>
          have hread := tileClass?_setTile? h.filled hset
          obtain ⟨i, -, rfl⟩ := Option.map_eq_some_iff.mp hset
          refine ⟨h.width_eq, h.height_eq, Array.size_setIfInBounds.trans h.filled,
            fun s hs => (hread s).trans ?_⟩
          rw [lastClass_append, h.class_eq s hs]
          show _ = some ((if t = s then some k else none).getD _)
          by_cases hst : s = t
          · rw [if_pos hst, if_pos hst.symm]
            rfl
          · rw [if_neg hst, if_neg (Ne.symm hst)]
            rfl
  | spawn | remove | edit | command | step =>
      exact h.of_sameGrid (sameGrid_change fun _ _ => nofun) fun _ => rfl

theorem holds_after {width height : Int} (h : width.toNat * height.toNat ≤ maxCells)
    (cs : List Change) :
    Holds width.toNat height.toNat ((empty width height).record cs)
      ((empty width height).after cs) :=
  record_induction (holds_empty h) (fun _ _ c h => h.change c) cs

/-- The grid of a world, after what is on record, is a table with `width` columns and
`height` rows. -/
structure IsArray (width height : Int) (past : List (Change × Answer)) (w : GridWorld) :
    Prop where
  /-- The place of a tile on the grid is worked out within 32 bits, and there is a cell
  for it. -/
  index : ∀ t : Tile, t.Within width height →
    FitsInt32 (t.y * w.width) ∧ FitsInt32 (t.y * w.width + t.x) ∧
      ∃ i, w.cellIndex? t = some i ∧ (i : Int) = t.y * w.width + t.x ∧ i < w.cells.size
  /-- For all other tiles nothing is worked out. -/
  outside : ∀ t : Tile, ¬ t.Within width height → w.cellIndex? t = none
  setTile_iff : ∀ t c, (w.setTile? t c).isSome = true ↔ t.Within width height
  /-- Every tile of the grid holds what was last put there. -/
  tileClass_eq : ∀ t, w.tileClass? t =
    if t.Within width height then some (lastClass past t) else none
  /-- What is put somewhere is seen there and nowhere else. -/
  tileClass_setTile : ∀ t c w', w.setTile? t c = some w' →
    ∀ s, w'.tileClass? s = if s = t then some c else w.tileClass? s
  mem_tiles : ∀ t, t ∈ w.tiles ↔ (w.tileClass? t).isSome = true
  tiles_ordered : w.tiles.Pairwise Tile.Before
  /-- So a loop over the tiles has nothing to sort. -/
  enumerated : Selector.tiles.enumerate w = w.tiles.map .tile

/-- A tile on a grid of not too many cells has a place that fits. -/
theorem fits_of_place_lt {width height x y : Nat} (h : width * height ≤ maxCells)
    (hx : x < width) (hy : y < height) :
    FitsInt32 (y * width : Nat) ∧ FitsInt32 (y * width + x : Nat) := by
  have hmax : Int32.maxValue.toInt = maxCells := by decide
  have hmin : Int32.minValue.toInt ≤ 0 := by decide
  have hlt := place_lt hx hy
  unfold FitsInt32
  rw [hmax]
  omega

theorem Holds.isArray {width height : Nat} {past : List (Change × Answer)}
    (h : Holds width height past w) (hcount : width * height ≤ maxCells) :
    IsArray width height past w := by
  have hindex : ∀ t, (w.cellIndex? t).isSome = true ↔ t.Within width height := by
    intro t
    rw [isSome_cellIndex?_iff, h.width_eq, h.height_eq]
  have houtside : ∀ t, ¬ t.Within width height → w.cellIndex? t = none := by
    intro t ht
    exact Option.not_isSome_iff_eq_none.mp (mt (hindex t).mp ht)
  have hclass : ∀ t, w.tileClass? t =
      if t.Within width height then some (lastClass past t) else none := by
    intro t
    by_cases ht : t.Within width height
    · rw [if_pos ht, h.class_eq t ht]
    · rw [if_neg ht, tileClass?, houtside t ht]
      rfl
  refine ⟨fun t ht => ?_, houtside, fun t c => ?_, hclass,
    fun t c w' hset => tileClass?_setTile? h.filled hset, fun t => ?_, pairwise_tiles w,
    enumerate_tiles w⟩
  · obtain ⟨x, y, rfl, hx, hy⟩ := Tile.within_iff.mp ht
    have hplace : w.cellIndex? ⟨x, y⟩ = some (y * w.width + x) :=
      cellIndex?_eq_some_iff.mpr ⟨x, y, rfl, h.width_eq ▸ hx, h.height_eq ▸ hy, rfl⟩
    obtain ⟨hrow, hcell⟩ := fits_of_place_lt hcount hx hy
    rw [← h.width_eq] at hrow hcell
    exact ⟨by exact_mod_cast hrow, by exact_mod_cast hcell, _, hplace, by push_cast; rfl,
      lt_size_of_cellIndex? h.filled hplace⟩
  · rw [setTile?, Option.isSome_map]
    exact hindex t
  · rw [mem_tiles_iff, h.width_eq, h.height_eq, hclass]
    by_cases ht : t.Within width height
    · rw [if_pos ht]
      exact iff_of_true ht rfl
    · rw [if_neg ht]
      exact iff_of_false ht nofun

/--
**The grid is a faithful table.**  Let the sides of a new world be any integers, of which
negative ones count as zero, with at most as many cells as a signed 32-bit integer can
count.  Then whatever has happened to the world since, no place of a tile is worked out
beyond 32 bits or lies outside the cells.  A tile can be set exactly if it is on the grid;
it has a class exactly then, which is the one that it was last set to, and no tile shows
what was put at another.  The tiles with a class are those that the world lists, each
once, row by row, and a loop over them visits them as they are listed.
-/
theorem grid_is_array {width height : Int}
    (hcells : max width 0 * max height 0 ≤ Int32.maxValue.toInt) (cs : List Change) :
    IsArray (max width 0) (max height 0) ((empty width height).record cs)
      ((empty width height).after cs) := by
  have hmax : Int32.maxValue.toInt = maxCells := by decide
  rw [← Int.toNat_eq_max, ← Int.toNat_eq_max] at hcells ⊢
  have hcount : width.toNat * height.toNat ≤ maxCells := by
    rw [hmax] at hcells
    exact_mod_cast hcells
  exact (holds_after hcount cs).isArray hcount

/-- One tile is set, another one twice, and a third one is not on a grid of two
columns. -/
def building : List Change :=
  [.setTile ⟨1, 2⟩ .solid, .setTile ⟨0, 1⟩ .hazard, .setTile ⟨2, 1⟩ .ladder,
    .setTile ⟨0, 1⟩ .platform]

/-- The last change of a tile is what is seen, and the tile beyond the edge is not that at
the start of the next row. -/
theorem grid_is_array_building :
    max (2 : Int) 0 * max 3 0 ≤ Int32.maxValue.toInt ∧
      ((empty 2 3).after building).tileClass? ⟨1, 2⟩ = some .solid ∧
      ((empty 2 3).after building).tileClass? ⟨0, 1⟩ = some .platform ∧
      ((empty 2 3).after building).tileClass? ⟨0, 2⟩ = some .empty ∧
      ((empty 2 3).after building).tileClass? ⟨2, 1⟩ = none := by
  have hcells : max (2 : Int) 0 * max 3 0 ≤ Int32.maxValue.toInt := by decide
  have h := grid_is_array hcells building
  exact ⟨hcells, h.tileClass_eq ⟨1, 2⟩, h.tileClass_eq ⟨0, 1⟩, h.tileClass_eq ⟨0, 2⟩,
    h.tileClass_eq ⟨2, 1⟩⟩

end GridWorld

end ActorScript
