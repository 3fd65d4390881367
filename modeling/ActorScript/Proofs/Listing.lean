import ActorScript.GridWorld.Listed
import ActorScript.Proofs.Outcomes
import ActorScript.Proofs.TotalOrder
import Mathlib

/-!
# How a loop lists its candidates

A loop over the world takes what the world enumerates, puts the filter to each candidate
in turn, works out the key of each that is kept, and sorts.  Here each of the three is a
relation of its own, stated without the functions that do it: `InTurn` and `Sifted` hand
the generator from one candidate to the next, and `StableSort` has every element of a
sorted list carry its place from before.

## Main results

* `stableSort_iff` — merge sort is the one stable sort there is.
* `Evaluation.mapM_yields_iff`, `Evaluation.mapM_fails_iff` — evaluations one after the
  other have their values in turn, or the fault of the first one that has no value.
* `Scope.candidates_meet_reference` — the candidates of a loop are the ones enumerated,
  sifted and sorted, and there is no other fault than that of a filter or of a key.
-/

namespace ActorScript

/-! ## Stable sorting -/

section StableSort

variable {α : Type} {before : α → α → Prop} {le : α → α → Bool} {l out : List α}

/-- `out` is `l` in the order of `before`.  If every element carries its place in `l`
along, then of two elements of `out` the former is before the latter, or else neither is
before the other and it had the former place. -/
def StableSort (before : α → α → Prop) (l out : List α) : Prop :=
  ∃ placed : List (α × Nat), placed.Perm l.zipIdx ∧ placed.map Prod.fst = out ∧
    placed.Pairwise fun a b => before a.1 b.1 ∨ ¬ before b.1 a.1 ∧ a.2 < b.2

theorem StableSort.perm (h : StableSort before l out) : out.Perm l := by
  obtain ⟨placed, hperm, rfl, -⟩ := h
  have hmap := hperm.map Prod.fst
  rwa [List.zipIdx_map_fst] at hmap

/-- No place is taken twice. -/
theorem pairwise_places {placed : List (α × Nat)} (h : placed.Perm l.zipIdx) :
    placed.Pairwise fun a b => a.2 ≠ b.2 := by
  have hnodup : (placed.map Prod.snd).Nodup := by
    refine (h.map Prod.snd).nodup_iff.mpr ?_
    rw [List.zipIdx_map_snd]
    exact List.nodup_range'
  exact List.pairwise_map.mp hnodup

/-- **Merge sort is the stable sort.**  Two stable sorts have the same elements with the
same places, in an order that leaves no choice. -/
theorem stableSort_iff (hle : ∀ a b, le a b = true ↔ ¬ before b a)
    (htrans : ∀ a b c, le a b = true → le b c = true → le a c = true)
    (htotal : ∀ a b, (le a b || le b a) = true) :
    StableSort before l out ↔ out = l.mergeSort le := by
  have hmerge : (l.zipIdx.mergeSort (List.zipIdxLE le)).Pairwise
      fun a b => before a.1 b.1 ∨ ¬ before b.1 a.1 ∧ a.2 < b.2 := by
    have hsorted := List.pairwise_mergeSort (List.zipIdxLE_trans htrans)
      (List.zipIdxLE_total htotal) l.zipIdx
    refine (hsorted.and (pairwise_places (List.mergeSort_perm _ _))).imp fun {a b} h => ?_
    obtain ⟨hab, hplace⟩ := h
    unfold List.zipIdxLE at hab
    by_cases hle' : le a.1 b.1 = true
    · by_cases hge : le b.1 a.1 = true
      · rw [if_pos hle', if_pos hge, decide_eq_true_iff] at hab
        exact .inr ⟨(hle _ _).mp hle', by omega⟩
      · exact .inl (Classical.not_not.mp fun hn => hge ((hle _ _).mpr hn))
    · rw [if_neg hle'] at hab
      cases hab
  constructor
  · rintro ⟨placed, hperm, rfl, hpairs⟩
    rw [← List.mergeSort_zipIdx]
    congr 1
    refine List.Perm.eq_of_pairwise (fun a b _ _ hab hba => ?_) hpairs hmerge
      (hperm.trans (List.mergeSort_perm _ _).symm)
    have hone := htotal a.1 b.1
    rw [Bool.or_eq_true, hle, hle] at hone
    rcases hab with hab | ⟨hab, hlt⟩
    · rcases hba with hba | ⟨hba, -⟩
      · exact absurd hone (by simp [hab, hba])
      · exact absurd hab hba
    · rcases hba with hba | ⟨-, hlt'⟩
      · exact absurd hba hab
      · omega
  · rintro rfl
    exact ⟨_, List.mergeSort_perm _ _, List.mergeSort_zipIdx, hmerge⟩

/-- Of two members of a list one comes first. -/
theorem pair_sublist_of_mem {x y : α} (hx : x ∈ l) (hy : y ∈ l) (hne : x ≠ y) :
    [x, y].Sublist l ∨ [y, x].Sublist l := by
  obtain ⟨former, latter, rfl⟩ := List.append_of_mem hx
  rcases List.mem_append.mp hy with hy | hy
  · right
    exact (List.singleton_sublist.mpr hy).append
      (List.singleton_sublist.mpr List.mem_cons_self)
  · have hlater : y ∈ latter := (List.mem_cons.mp hy).resolve_left hne.symm
    left
    exact ((List.singleton_sublist.mpr hlater).cons_cons x).trans
      (List.sublist_append_right _ _)

/-- The places of the elements of a stable sort: of two elements of `l` the latter comes
first only if it is before the former. -/
theorem StableSort.exists_places (h : StableSort before l out) :
    ∃ places : List Nat, places.Perm (List.range l.length) ∧
      out.map some = places.map (l[·]?) ∧
      ∀ i j a b, i < j → l[i]? = some a → l[j]? = some b →
        [i, j].Sublist places ∨ before b a ∧ [j, i].Sublist places := by
  obtain ⟨placed, hperm, rfl, hpairs⟩ := h
  have hmem : ∀ {a : α} {i : Nat}, (a, i) ∈ placed ↔ l[i]? = some a := fun {a i} =>
    hperm.mem_iff.trans List.mem_zipIdx_iff_getElem?
  refine ⟨placed.map Prod.snd, ?_, ?_, fun i j a b hij ha hb => ?_⟩
  · have hplaces := hperm.map Prod.snd
    rwa [List.zipIdx_map_snd, ← List.range_eq_range'] at hplaces
  · rw [List.map_map, List.map_map]
    exact List.map_congr_left fun x hx => (hmem.mp hx).symm
  · have hne : (a, i) ≠ (b, j) := by
      intro h
      cases h
      omega
    rcases pair_sublist_of_mem (hmem.mpr ha) (hmem.mpr hb) hne with h | h
    · exact .inl (h.map Prod.snd)
    · refine .inr ⟨?_, h.map Prod.snd⟩
      rcases List.pairwise_pair.mp (hpairs.sublist h) with hbefore | ⟨-, hji⟩
      · exact hbefore
      · exact absurd hji (by omega)

end StableSort

/-! ## Evaluations in turn -/

namespace Evaluation

variable {α β : Type} {ev : Evaluation α} {k : α → Evaluation β}
  {g g' : Generator} {f : Fault}

theorem pure_yields_iff {a b : α} :
    (pure a : Evaluation α).Yields g b g' ↔ b = a ∧ g' = g := by
  constructor
  · intro h
    cases h
    exact ⟨rfl, rfl⟩
  · rintro ⟨rfl, rfl⟩
    rfl

theorem not_pure_fails {a : α} : ¬ (pure a : Evaluation α).Fails g f := nofun

/-- A bind goes by the outcome of its first part. -/
theorem run_bind_of_yields {a : α} {g₁ : Generator} (h : ev.Yields g a g₁) :
    ((ev >>= k).run g).run = ((k a).run g₁).run := by
  rw [StateT.run_bind, ExceptT.run_bind, h]
  rfl

theorem run_bind_of_fails (h : ev.Fails g f) : (ev >>= k).Fails g f := by
  show ((ev >>= k).run g).run = _
  rw [StateT.run_bind, ExceptT.run_bind, h]
  rfl

theorem run_bind_of_none (h : (ev.run g).run = none) : ((ev >>= k).run g).run = none := by
  rw [StateT.run_bind, ExceptT.run_bind, h]
  rfl

theorem bind_yields_iff {b : β} :
    (ev >>= k).Yields g b g' ↔ ∃ a g₁, ev.Yields g a g₁ ∧ (k a).Yields g₁ b g' := by
  constructor
  · intro h
    match hev : (ev.run g).run with
    | some (.ok (a, g₁)) => exact ⟨a, g₁, hev, (run_bind_of_yields hev).symm.trans h⟩
    | some (.error f) => cases (run_bind_of_fails (k := k) hev).symm.trans h
    | none => cases (run_bind_of_none (k := k) hev).symm.trans h
  · rintro ⟨a, g₁, ha, hb⟩
    exact (run_bind_of_yields ha).trans hb

theorem bind_fails_iff :
    (ev >>= k).Fails g f ↔ ev.Fails g f ∨ ∃ a g₁, ev.Yields g a g₁ ∧
      (k a).Fails g₁ f := by
  constructor
  · intro h
    match hev : (ev.run g).run with
    | some (.ok (a, g₁)) => exact .inr ⟨a, g₁, hev, (run_bind_of_yields hev).symm.trans h⟩
    | some (.error f') =>
        cases (run_bind_of_fails (k := k) hev).symm.trans h
        exact .inl hev
    | none => cases (run_bind_of_none (k := k) hev).symm.trans h
  · rintro (h | ⟨a, g₁, ha, hb⟩)
    · exact run_bind_of_fails h
    · exact (run_bind_of_yields ha).trans hb

/-- Every element is looked at once, in the order of the list, and the generator is handed
on from each to the next. -/
inductive InTurn (look : α → Evaluation β) :
    Generator → List α → List β → Generator → Prop
  | nil (g : Generator) : InTurn look g [] [] g
  | cons {g g₁ g' : Generator} {a : α} {b : β} {as : List α} {bs : List β}
      (h : (look a).Yields g b g₁) (rest : InTurn look g₁ as bs g') :
      InTurn look g (a :: as) (b :: bs) g'

theorem InTurn.length_eq {look : α → Evaluation β} {as : List α} {bs : List β}
    (h : InTurn look g as bs g') : bs.length = as.length := by
  induction h with
  | nil => rfl
  | cons _ _ ih => rw [List.length_cons, List.length_cons, ih]

theorem mapM_yields_iff {look : α → Evaluation β} {as : List α} {bs : List β} :
    (as.mapM look).Yields g bs g' ↔ InTurn look g as bs g' := by
  induction as generalizing g bs g' with
  | nil =>
      rw [List.mapM_nil, pure_yields_iff]
      constructor
      · rintro ⟨rfl, rfl⟩
        exact .nil g'
      · intro h
        cases h
        exact ⟨rfl, rfl⟩
  | cons a as ih =>
      simp only [List.mapM_cons, bind_yields_iff, pure_yields_iff, ih]
      constructor
      · rintro ⟨b, g₁, hb, bs, g₂, hbs, rfl, rfl⟩
        exact .cons hb hbs
      · intro h
        cases h with
        | cons hb hbs => exact ⟨_, _, hb, _, _, hbs, rfl, rfl⟩

/-- The fault is that of the first evaluation that has no value. -/
theorem mapM_fails_iff {look : α → Evaluation β} {as : List α} :
    (as.mapM look).Fails g f ↔
      ∃ former a latter bs g₁, as = former ++ a :: latter ∧ InTurn look g former bs g₁ ∧
        (look a).Fails g₁ f := by
  induction as generalizing g with
  | nil =>
      rw [List.mapM_nil]
      refine ⟨fun h => absurd h not_pure_fails, ?_⟩
      rintro ⟨former, a, latter, bs, g₁, h, -⟩
      cases former <;> cases h
  | cons a as ih =>
      simp only [List.mapM_cons, bind_fails_iff, not_pure_fails, ih,
        and_false, exists_false, or_false]
      constructor
      · rintro (h | ⟨b, g₁, hb, former, a', latter, bs, g₂, rfl, hbs, hf⟩)
        · exact ⟨[], a, as, [], g, rfl, .nil g, h⟩
        · exact ⟨a :: former, a', latter, b :: bs, g₂, rfl, .cons hb hbs, hf⟩
      · rintro ⟨former, a', latter, bs, g₁, has, hbs, hf⟩
        cases hbs with
        | nil =>
            cases has
            exact .inl hf
        | cons hb hbs =>
            cases has
            exact .inr ⟨_, _, hb, _, _, _, _, _, rfl, hbs, hf⟩

/-- A test is put to every element once, in the order of the list, and the elements that
pass it are kept. -/
inductive Sifted (test : α → Evaluation Bool) :
    Generator → List α → List α → Generator → Prop
  | nil (g : Generator) : Sifted test g [] [] g
  | keep {g g₁ g' : Generator} {a : α} {as kept : List α} (h : (test a).Yields g true g₁)
      (rest : Sifted test g₁ as kept g') : Sifted test g (a :: as) (a :: kept) g'
  | drop {g g₁ g' : Generator} {a : α} {as kept : List α} (h : (test a).Yields g false g₁)
      (rest : Sifted test g₁ as kept g') : Sifted test g (a :: as) kept g'

theorem Sifted.sublist {test : α → Evaluation Bool} {as kept : List α}
    (h : Sifted test g as kept g') : kept.Sublist as := by
  induction h with
  | nil => exact .slnil
  | keep _ _ ih => exact ih.cons_cons _
  | drop _ _ ih => exact ih.cons _

theorem sifted_iff {test : α → Evaluation Bool} {as kept : List α} :
    Sifted test g as kept g' ↔ ∃ verdicts, InTurn test g as verdicts g' ∧
      kept = ((as.zip verdicts).filter Prod.snd).map Prod.fst := by
  constructor
  · intro h
    induction h with
    | nil g => exact ⟨[], .nil g, rfl⟩
    | keep ha _ ih =>
        obtain ⟨verdicts, hin, rfl⟩ := ih
        exact ⟨true :: verdicts, .cons ha hin, rfl⟩
    | drop ha _ ih =>
        obtain ⟨verdicts, hin, rfl⟩ := ih
        exact ⟨false :: verdicts, .cons ha hin, rfl⟩
  · rintro ⟨verdicts, hin, rfl⟩
    induction hin with
    | nil g => exact .nil g
    | @cons _ _ _ _ verdict _ _ ha _ ih =>
        cases verdict with
        | true => exact .keep ha ih
        | false => exact .drop ha ih

end Evaluation

open Evaluation

/-! ## The three parts of a listing -/

/-- Tiles are read row by row, and each row from its first column on. -/
def Tile.Before (a b : Tile) : Prop := a.y < b.y ∨ a.y = b.y ∧ a.x < b.x

theorem Tile.rowMajorLE_iff {a b : Tile} :
    a.rowMajorLE b = true ↔ a.y < b.y ∨ a.y = b.y ∧ a.x ≤ b.x := by
  unfold rowMajorLE
  simp

/-- What the world lists for a selector: the actors as they come, the tiles row by row. -/
def Selector.Enumerates {W : Type} [World W] (w : W) : Selector → List Value → Prop
  | .actors kind, vs => vs = (World.actors w kind).map fun id => .object (some id)
  | .tiles, vs => ∃ tiles, StableSort Tile.Before (World.tiles w) tiles ∧
      vs = tiles.map .tile

theorem Selector.enumerates_iff {W : Type} [World W] {w : W} {sel : Selector}
    {vs : List Value} :
    sel.Enumerates w vs ↔ vs = sel.enumerate w := by
  cases sel with
  | actors kind => exact Iff.rfl
  | tiles =>
      have hsort : ∀ tiles, StableSort Tile.Before (World.tiles w) tiles ↔
          tiles = (World.tiles w).mergeSort Tile.rowMajorLE := by
        intro tiles
        refine stableSort_iff (fun a b => ?_) (fun a b c => ?_) fun a b => ?_
        · rw [Tile.rowMajorLE_iff, Tile.Before]
          omega
        · simp only [Tile.rowMajorLE_iff]
          omega
        · rw [Bool.or_eq_true, Tile.rowMajorLE_iff, Tile.rowMajorLE_iff]
          omega
      unfold Enumerates enumerate
      simp only [hsort, exists_eq_left]

namespace Scope

variable {W : Type} [World W]

/-- The test that a filter puts to a candidate. -/
def test (s : Scope W) (var : Name) (filter : ExprId) (c : Value) : Evaluation Bool :=
  (s.withCandidate var c).condition "for each filter" filter

/-- The key of a candidate. -/
def keyOf (s : Scope W) (var : Name) (expr : ExprId) (c : Value) : Evaluation Number := do
  ((← (s.withCandidate var c).evaluate expr).expectNumber "for each sort key" :
    Except Fault _)

variable {s : Scope W} {var : Name} {g g' : Generator} {f : Fault}
  {cs kept vs : List Value}

theorem keep_yields_iff {filter : ExprId} :
    (s.keep var filter cs).Yields g kept g' ↔
      Sifted (s.test var filter) g cs kept g' := by
  unfold keep
  simp only [bind_yields_iff, mapM_yields_iff, pure_yields_iff]
  rw [sifted_iff]
  constructor
  · rintro ⟨verdicts, g₁, hin, rfl, rfl⟩
    exact ⟨verdicts, hin, rfl⟩
  · rintro ⟨verdicts, hin, rfl⟩
    exact ⟨verdicts, g', hin, rfl, rfl⟩

theorem keep_fails_iff {filter : ExprId} :
    (s.keep var filter cs).Fails g f ↔
      ∃ former c latter kept g₁, cs = former ++ c :: latter ∧
        Sifted (s.test var filter) g former kept g₁ ∧
        (s.test var filter c).Fails g₁ f := by
  unfold keep
  simp only [bind_fails_iff, mapM_fails_iff, not_pure_fails, and_false,
    exists_false, or_false]
  constructor
  · rintro ⟨former, c, latter, verdicts, g₁, rfl, hin, hf⟩
    exact ⟨former, c, latter, _, g₁, rfl, sifted_iff.mpr ⟨verdicts, hin, rfl⟩, hf⟩
  · rintro ⟨former, c, latter, kept, g₁, rfl, hsift, hf⟩
    obtain ⟨verdicts, hin, -⟩ := sifted_iff.mp hsift
    exact ⟨former, c, latter, verdicts, g₁, rfl, hin, hf⟩

theorem stableSort_keys_iff {order : SortOrder} {keyed sorted : List (Number × Value)} :
    StableSort (fun a b => order.Before a.1 b.1) keyed sorted ↔
      sorted = keyed.mergeSort fun a b => order.le a.1 b.1 :=
  stableSort_iff (fun _ _ => SortOrder.le_iff) (fun _ _ _ => SortOrder.le_trans)
    fun a b => order.le_total a.1 b.1

theorem arrange_yields_iff {key : SortKey} :
    (s.arrange var key kept).Yields g vs g' ↔
      ∃ keys, InTurn (s.keyOf var key.expr) g kept keys g' ∧
        ∃ sorted, StableSort (fun a b => key.order.Before a.1 b.1)
          (keys.zip kept) sorted ∧
          vs = sorted.map Prod.snd := by
  show (kept.mapM (s.keyOf var key.expr) >>= _).Yields g vs g' ↔ _
  simp only [bind_yields_iff, mapM_yields_iff, pure_yields_iff, stableSort_keys_iff,
    exists_eq_left]
  constructor
  · rintro ⟨keys, g₁, hin, rfl, rfl⟩
    exact ⟨keys, hin, rfl⟩
  · rintro ⟨keys, hin, rfl⟩
    exact ⟨keys, g', hin, rfl, rfl⟩

theorem arrange_fails_iff {key : SortKey} :
    (s.arrange var key kept).Fails g f ↔
      ∃ former c latter keys g₁, kept = former ++ c :: latter ∧
        InTurn (s.keyOf var key.expr) g former keys g₁ ∧
        (s.keyOf var key.expr c).Fails g₁ f := by
  show (kept.mapM (s.keyOf var key.expr) >>= _).Fails g f ↔ _
  simp only [bind_fails_iff, mapM_fails_iff, not_pure_fails, and_false,
    exists_false, or_false]

/-! ## Listings -/

/-- The candidates that a filter keeps; without one all are kept, and nothing is drawn. -/
def Keeps (s : Scope W) (var : Name) (filter : Option ExprId) (g : Generator)
    (cs kept : List Value) (g' : Generator) : Prop :=
  match filter with
  | none => kept = cs ∧ g' = g
  | some e => Sifted (s.test var e) g cs kept g'

/-- The candidates in the order of a key; without one they stay as they are, and nothing
is drawn. -/
def Arranges (s : Scope W) (var : Name) (sort : Option SortKey) (g : Generator)
    (kept vs : List Value) (g' : Generator) : Prop :=
  match sort with
  | none => vs = kept ∧ g' = g
  | some key => ∃ keys, InTurn (s.keyOf var key.expr) g kept keys g' ∧
      ∃ sorted, StableSort (fun a b => key.order.Before a.1 b.1) (keys.zip kept) sorted ∧
        vs = sorted.map Prod.snd

/-- The first test that faults, after the tests of the candidates before. -/
def TestFaults (s : Scope W) (var : Name) (filter : Option ExprId) (g : Generator)
    (cs : List Value) (f : Fault) : Prop :=
  ∃ e ∈ filter, ∃ former c latter kept g₁, cs = former ++ c :: latter ∧
    Sifted (s.test var e) g former kept g₁ ∧ (s.test var e c).Fails g₁ f

/-- The first key that faults, after the keys of the candidates before. -/
def KeyFaults (s : Scope W) (var : Name) (sort : Option SortKey) (g : Generator)
    (kept : List Value) (f : Fault) : Prop :=
  ∃ key ∈ sort, ∃ former c latter keys g₁, kept = former ++ c :: latter ∧
    InTurn (s.keyOf var key.expr) g former keys g₁ ∧ (s.keyOf var key.expr c).Fails g₁ f

section Listing

variable {sel : Selector} {filter : Option ExprId} {sort : Option SortKey}

/-- The filter, if there is one, and then the key, if there is one. -/
private def sift (s : Scope W) (var : Name) (filter : Option ExprId) (cs : List Value) :
    Evaluation (List Value) :=
  match filter with
  | some e => s.keep var e cs
  | none => pure cs

private def order (s : Scope W) (var : Name) (sort : Option SortKey) (kept : List Value) :
    Evaluation (List Value) :=
  match sort with
  | some key => s.arrange var key kept
  | none => pure kept

/-- A loop whose variable is declared as it has to be sifts and orders what is
enumerated. -/
private theorem candidates_eq (h : s.globals.type? var = some sel.candidateType) :
    s.candidates var sel filter sort =
      s.sift var filter (sel.enumerate s.world) >>= s.order var sort := by
  unfold candidates
  dsimp only
  rw [if_neg (not_not_intro h)]
  cases filter <;> rfl

private theorem sift_yields_iff :
    (s.sift var filter cs).Yields g kept g' ↔ s.Keeps var filter g cs kept g' := by
  cases filter with
  | none => exact pure_yields_iff
  | some e => exact keep_yields_iff

private theorem sift_fails_iff :
    (s.sift var filter cs).Fails g f ↔ s.TestFaults var filter g cs f := by
  unfold TestFaults
  cases filter with
  | none =>
      refine ⟨fun h => absurd h not_pure_fails, ?_⟩
      rintro ⟨e, ⟨⟩, -⟩
  | some e =>
      simp only [Option.mem_some, exists_eq_left']
      exact keep_fails_iff

private theorem order_yields_iff :
    (s.order var sort kept).Yields g vs g' ↔ s.Arranges var sort g kept vs g' := by
  cases sort with
  | none => exact pure_yields_iff
  | some key => exact arrange_yields_iff

private theorem order_fails_iff :
    (s.order var sort kept).Fails g f ↔ s.KeyFaults var sort g kept f := by
  unfold KeyFaults
  cases sort with
  | none =>
      refine ⟨fun h => absurd h not_pure_fails, ?_⟩
      rintro ⟨key, ⟨⟩, -⟩
  | some key =>
      simp only [Option.mem_some, exists_eq_left']
      exact arrange_fails_iff

theorem candidates_yields_iff (hdeclared : s.globals.type? var = some sel.candidateType) :
    (s.candidates var sel filter sort).Yields g vs g' ↔
      ∃ cs kept g₁, sel.Enumerates s.world cs ∧ s.Keeps var filter g cs kept g₁ ∧
        s.Arranges var sort g₁ kept vs g' := by
  simp only [candidates_eq hdeclared, bind_yields_iff, sift_yields_iff, order_yields_iff,
    Selector.enumerates_iff]
  constructor
  · rintro ⟨kept, g₁, hkept, hvs⟩
    exact ⟨_, kept, g₁, rfl, hkept, hvs⟩
  · rintro ⟨_, kept, g₁, rfl, hkept, hvs⟩
    exact ⟨kept, g₁, hkept, hvs⟩

theorem candidates_fails_iff (hdeclared : s.globals.type? var = some sel.candidateType) :
    (s.candidates var sel filter sort).Fails g f ↔
      ∃ cs, sel.Enumerates s.world cs ∧ (s.TestFaults var filter g cs f ∨
        ∃ kept g₁, s.Keeps var filter g cs kept g₁ ∧ s.KeyFaults var sort g₁ kept f) := by
  simp only [candidates_eq hdeclared, bind_fails_iff, sift_fails_iff, sift_yields_iff,
    order_fails_iff, Selector.enumerates_iff, exists_eq_left]

theorem Keeps.sublist {g₁ : Generator} (h : s.Keeps var filter g cs kept g₁) :
    kept.Sublist cs := by
  cases filter with
  | none =>
      obtain ⟨rfl, -⟩ := h
      exact .refl kept
  | some e => exact Sifted.sublist h

theorem Arranges.perm (h : s.Arranges var sort g kept vs g') : vs.Perm kept := by
  cases sort with
  | none =>
      obtain ⟨rfl, -⟩ := h
      exact .refl vs
  | some key =>
      obtain ⟨keys, hin, sorted, hsorted, rfl⟩ := h
      have hperm := hsorted.perm.map Prod.snd
      rwa [List.map_snd_zip (Nat.le_of_eq hin.length_eq.symm)] at hperm

end Listing

end Scope

/-! ## The step that lists -/

open Machine Machine.Config

variable {W : Type} [World W] {t : Tree} {c c' : Config W} {e : Option Event}

/-- A loop that has no list yet is refused for want of budget, or else it has its list or
faults.  Whichever it is, no variable is written, and the world is only looked at. -/
theorem Machine.Config.Step.of_listing {id : StmtId} {var : Name} {sel : Selector}
    {filter : Option ExprId} {sort : Option SortKey} {body : StmtId}
    (hat : c.At t id (.forEach var sel filter sort body))
    (hf : ∀ vs i phase, c.memory.progress.frame id ≠ .forEach vs i phase)
    (h : Step t c e c') :
    c'.memory.globals = c.memory.globals ∧ c'.world = c.world ∧
      (c.memory.budget.canStep = true →
        (∃ vs, ((c.scope t).candidates var sel filter sort).Yields c.memory.generator vs
          c'.memory.generator ∧ e = some (.listed id vs)) ∨
        ∃ f, ((c.scope t).candidates var sel filter sort).Fails c.memory.generator f ∧
          c'.control = .raise f ∧ c'.memory.generator = c.memory.generator) := by
  rw [← step?_eq_some_iff, hat.step?_eq] at h
  simp only [visit?] at h
  rcases attempt_eq_some h with ⟨hb, rfl, rfl⟩ | ⟨hb, f, hv, rfl, rfl⟩
    | ⟨hb, vs, g, hv, h⟩
  · refine ⟨rfl, rfl, fun hb' => ?_⟩
    rw [hb] at hb'
    cases hb'
  · exact ⟨rfl, rfl, fun _ => .inr ⟨f, hv, rfl, rfl⟩⟩
  · simp only [Memory.setFrame?, Option.pure_def, Option.bind_eq_bind,
      Option.bind_eq_some_iff, Option.map_eq_some_iff, Option.some.injEq,
      Prod.mk.injEq] at h
    obtain ⟨_, ⟨p, hp, rfl⟩, rfl, rfl⟩ := h
    exact ⟨rfl, rfl, fun _ => .inl ⟨vs, hv, rfl⟩⟩

namespace Scope

/--
**The candidates of a loop meet their reference.**  Let the variable of a loop be declared
with the type of its candidates.  The loop lists `vs` if and only if the world enumerates
some candidates, the filter keeps some of these, and `vs` is what is kept, sorted stably
by its keys in the total order of numbers, upwards or downwards.  Every candidate is
tested once, in the order of the enumeration, and then the key of every one that was kept
is worked out once, in the same order, with one generator handed through all of it.  The
loop faults if and only if a test or a key does, with the fault of the first one.

So nothing is lost, doubled or made up on the way; in a script that passed the checks one
of the two happens, and the step of the machine that does all this leaves the variables
and the world as they are.
-/
theorem candidates_meet_reference {s : Scope W} {var : Name} {sel : Selector}
    (hdeclared : s.globals.type? var = some sel.candidateType) (filter : Option ExprId)
    (sort : Option SortKey) :
    (∀ g vs g', (s.candidates var sel filter sort).Yields g vs g' ↔
      ∃ cs kept g₁, sel.Enumerates s.world cs ∧ s.Keeps var filter g cs kept g₁ ∧
        s.Arranges var sort g₁ kept vs g') ∧
    (∀ g f, (s.candidates var sel filter sort).Fails g f ↔
      ∃ cs, sel.Enumerates s.world cs ∧ (s.TestFaults var filter g cs f ∨
        ∃ kept g₁, s.Keeps var filter g cs kept g₁ ∧ s.KeyFaults var sort g₁ kept f)) ∧
    (∀ g g₁ g' cs kept vs, s.Keeps var filter g cs kept g₁ →
      s.Arranges var sort g₁ kept vs g' → kept.Sublist cs ∧ vs.Perm kept) ∧
    (∀ root, s.tree.validate = .ok root → (∀ e ∈ filter, e < s.tree.exprs.size) →
      (∀ key ∈ sort, key.expr < s.tree.exprs.size) → ∀ g,
      (∃ vs g', (s.candidates var sel filter sort).Yields g vs g') ∨
        ∃ f, (s.candidates var sel filter sort).Fails g f) ∧
    (∀ (c c' : Config W) (e : Option Event) (id body : StmtId), c.scope s.tree = s →
      c.At s.tree id (.forEach var sel filter sort body) →
      (∀ vs i phase, c.memory.progress.frame id ≠ .forEach vs i phase) →
      Step s.tree c e c' → c'.memory.globals = s.globals ∧ c'.world = s.world ∧
        (c.memory.budget.canStep = true →
          (∃ vs, (s.candidates var sel filter sort).Yields c.memory.generator vs
            c'.memory.generator ∧ e = some (.listed id vs)) ∨
          ∃ f, (s.candidates var sel filter sort).Fails c.memory.generator f ∧
            c'.control = .raise f ∧ c'.memory.generator = c.memory.generator)) := by
  refine ⟨fun g vs g' => candidates_yields_iff hdeclared,
    fun g f => candidates_fails_iff hdeclared,
    fun g g₁ g' cs kept vs hkept hvs => ⟨hkept.sublist, hvs.perm⟩,
    fun root hvalid hfilter hsort g => ?_, fun c c' e id body hscope hat hf h => ?_⟩
  · exact (s.candidates_meets (Tree.grounded_of_validate hvalid) var sel hfilter
      hsort).exists_outcome g
  · obtain ⟨hglobals, hworld, houtcome⟩ := h.of_listing hat hf
    rw [hscope] at houtcome
    exact ⟨hglobals.trans (congrArg Scope.globals hscope),
      hworld.trans (congrArg Scope.world hscope), houtcome⟩

/--
```text
for each foe in actors with foe.is_alive sort by foe.x descending { print foe }
```
-/
def parade : Tree where
  names := .ofList ["foe"]
  exprs := #[.var 1, .property .isAlive 0, .property .x 0]
  stmts := #[.print 0, .forEach 1 (.actors none) (some 1) (some ⟨2, .descending⟩) 0]
  globals := #[(1, .object)]
  root := some 1

/-- Two actors, one of whom is listed twice, and a handle of nobody. -/
def crowd : ListedWorld where
  grid :=
    (((GridWorld.empty 4 1).spawn { kind := .player, x := .ofInt 2, y := .zero }).2.spawn
    { kind := .enemy, x := .ofInt 3, y := .zero }).2
  actorList := some [2, 9, 1, 2]

/-- What the loop sees when it starts. -/
def paradeScope : Scope ListedWorld :=
  { tree := parade
    globals := .ofDeclarations parade.globals.toList
    world := crowd
    subject := 1 }

theorem candidates_meet_reference_parade :
    paradeScope.globals.type? 1 = some (Selector.actors none).candidateType ∧
      ∃ cs kept g₁ g', (Selector.actors none).Enumerates crowd cs ∧
        paradeScope.Keeps 1 (some 1) (.ofSeed 1) cs kept g₁ ∧
        paradeScope.Arranges 1 (some ⟨2, .descending⟩) g₁ kept
          [.object (some 2), .object (some 2), .object (some 1)] g' := by
  have hdeclared : paradeScope.globals.type? 1 =
    some (Selector.actors none).candidateType := rfl
  have hrun :
    (paradeScope.candidates 1 (.actors none) (some 1) (some ⟨2, .descending⟩)).Yields
      (.ofSeed 1) [.object (some 2), .object (some 2), .object (some 1)] (.ofSeed 1) := by
    unfold Yields
    cbv
  obtain ⟨hyields, -⟩ :=
    candidates_meet_reference hdeclared (some 1) (some ⟨2, .descending⟩)
  obtain ⟨cs, kept, g₁, hcs, hkept, hvs⟩ := (hyields _ _ _).mp hrun
  exact ⟨hdeclared, cs, kept, g₁, _, hcs, hkept, hvs⟩

/-! ## Ties -/

/-- Two numbers are equal in the language if their values are. -/
theorem eq_apply_numbers_iff {a b : Number} :
    BinaryOp.eq.apply (.number a) (.number b) = .ok (.boolean true) ↔
      a.equal b = true := by
  show Except.ok (Value.boolean (a.equal b)) = _ ↔ _
  simp

/--
**Ties keep their order, but for the two zeros.**  Of two candidates that a loop has kept,
let the keys be equal by the equality of the language.  Then they stand in the list as
they stood before, upwards as well as downwards, unless one of the keys is `0` and the
other `-0`, and the latter of the two is before the former in the order of the loop: these
two change places.
-/
theorem ties_keep_order_but_zeros {s : Scope W} {var : Name} {sel : Selector}
    {filter : Option ExprId} {key : SortKey} {g g' : Generator} {vs : List Value}
    (h : (s.candidates var sel filter (some key)).Yields g vs g') :
    ∃ cs kept g₁ keys places, sel.Enumerates s.world cs ∧
      s.Keeps var filter g cs kept g₁ ∧
      InTurn (s.keyOf var key.expr) g₁ kept keys g' ∧
      places.Perm (List.range kept.length) ∧ vs.map some = places.map (kept[·]?) ∧
      ∀ i j a b, i < j → keys[i]? = some a → keys[j]? = some b →
        BinaryOp.eq.apply (.number a) (.number b) = .ok (.boolean true) →
        [i, j].Sublist places ∨
          Number.OppositeZeros a b ∧ key.order.Before b a ∧ [j, i].Sublist places := by
  obtain ⟨cs, kept, g₁, hcs, hkept, keys, hin, sorted, hsorted, rfl⟩ :=
    (candidates_yields_iff (declared_of_yields h)).mp h
  obtain ⟨places, hperm, hplaced, hties⟩ := hsorted.exists_places
  have hzip : ∀ {k : Nat} {x : Number × Value}, (keys.zip kept)[k]? = some x ↔
      keys[k]? = some x.1 ∧ kept[k]? = some x.2 := List.getElem?_zip_eq_some
  refine ⟨cs, kept, g₁, keys, places, hcs, hkept, hin, ?_, ?_, ?_⟩
  · rwa [List.length_zip, hin.length_eq, Nat.min_self] at hperm
  · have hsnd : ∀ k : Nat, ((keys.zip kept)[k]?).map Prod.snd = kept[k]? := by
      intro k
      rw [← List.getElem?_map, List.map_snd_zip (Nat.le_of_eq hin.length_eq.symm)]
    calc (sorted.map Prod.snd).map some
        = (sorted.map some).map (Option.map Prod.snd) := by
          rw [List.map_map, List.map_map]
          rfl
      _ = places.map fun k => ((keys.zip kept)[k]?).map Prod.snd := by
          rw [hplaced, List.map_map]
          rfl
      _ = places.map (kept[·]?) := by simp only [hsnd]
  · intro i j a b hij ha hb htie
    have hget : ∀ {k : Nat} {n : Number}, keys[k]? = some n →
        ∃ c, (keys.zip kept)[k]? = some (n, c) := by
      intro k n hk
      have hlt : k < kept.length := by
        rw [← hin.length_eq]
        exact (List.getElem?_eq_some_iff.mp hk).1
      exact ⟨kept[k], hzip.mpr ⟨hk, List.getElem?_eq_getElem hlt⟩⟩
    obtain ⟨c, hc⟩ := hget ha
    obtain ⟨c', hc'⟩ := hget hb
    refine (hties i j _ _ hij hc hc').imp_right fun hlatter => ?_
    obtain ⟨hbefore, hsub⟩ := hlatter
    rcases Number.eq_or_zeros_of_equal (eq_apply_numbers_iff.mp htie) with rfl | hzeros
    · exact absurd hbefore (key.order.not_before_self a)
    · exact ⟨hzeros, hbefore, hsub⟩

/--
```text
for each foe in actors sort by foe.x ascending { print foe }
```
-/
def lineUp : Tree where
  names := .ofList ["foe"]
  exprs := #[.var 1, .property .x 0]
  stmts := #[.print 0, .forEach 1 (.actors none) none (some ⟨1, .ascending⟩) 0]
  globals := #[(1, .object)]
  root := some 1

/-- What the loop sees when it starts, among enemies at given places. -/
def lineUpScope (places : List Number) : Scope GridWorld where
  tree := lineUp
  globals := .ofDeclarations lineUp.globals.toList
  world :=
    places.foldl (fun w x => (w.spawn { kind := .enemy, x, y := .zero }).2) (.empty 4 1)
  subject := 1

/-- Of three actors the first and the last are at the same place, and stay in order. -/
theorem ties_keep_order_but_zeros_lineUp :
    ((lineUpScope [.one, .zero, .one]).candidates 1 (.actors none) none
        (some ⟨1, .ascending⟩)).Yields (.ofSeed 1)
      [.object (some 2), .object (some 1), .object (some 3)] (.ofSeed 1) ∧
    ∃ places : List Nat, places.Perm (List.range 3) ∧ [0, 2].Sublist places := by
  have hrun : ((lineUpScope [.one, .zero, .one]).candidates 1 (.actors none) none
        (some ⟨1, .ascending⟩)).Yields (.ofSeed 1)
      [.object (some 2), .object (some 1), .object (some 3)] (.ofSeed 1) := by
    unfold Yields
    cbv
  obtain ⟨cs, kept, g₁, keys, places, rfl, ⟨rfl, rfl⟩, hin, hperm, -, hties⟩ :=
    ties_keep_order_but_zeros hrun
  have hkeys : keys = [.one, .zero, .one] := by
    have hconcrete : InTurn ((lineUpScope [.one, .zero, .one]).keyOf 1 1) (.ofSeed 1)
        [.object (some 1), .object (some 2), .object (some 3)] [.one, .zero, .one]
        (.ofSeed 1) :=
      .cons rfl (.cons rfl (.cons rfl (.nil _)))
    cases (mapM_yields_iff.mpr hin).symm.trans (mapM_yields_iff.mpr hconcrete)
    rfl
  subst hkeys
  refine ⟨hrun, places, hperm, ?_⟩
  rcases hties 0 2 .one .one (by decide) rfl rfl rfl with hsub | ⟨hzeros, -⟩
  · exact hsub
  · exact absurd hzeros (by decide)

/-- Of two actors at `0` and at `-0` the keys are equal, and yet the second is listed
first. -/
theorem opposite_zeros_change_places :
    lineUp.validate = .ok 1 ∧
      (Selector.actors none).Enumerates (lineUpScope [.zero, -.zero]).world
        [.object (some 1), .object (some 2)] ∧
      InTurn ((lineUpScope [.zero, -.zero]).keyOf 1 1) (.ofSeed 1)
        [.object (some 1), .object (some 2)] [.zero, -.zero] (.ofSeed 1) ∧
      BinaryOp.eq.apply (.number .zero) (.number (-.zero)) = .ok (.boolean true) ∧
      ((lineUpScope [.zero, -.zero]).candidates 1 (.actors none) none
          (some ⟨1, .ascending⟩)).Yields (.ofSeed 1)
        [.object (some 2), .object (some 1)] (.ofSeed 1) := by
  refine ⟨rfl, rfl, .cons rfl (.cons rfl (.nil _)), rfl, ?_⟩
  unfold Yields
  cbv

end Scope

end ActorScript
