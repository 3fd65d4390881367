/-!
# Tables by number

Variables and actors are known by number.  The tables that hold them are lists of entries
by ascending number, each number once.
-/

namespace ActorScript.Keyed

variable {α : Type} {key k : Nat} {a : α} {entries : List (Nat × α)}

/-- Puts an entry at its place in the order, instead of an earlier one of the same
number. -/
def insert (key : Nat) (a : α) : List (Nat × α) → List (Nat × α)
  | [] => [(key, a)]
  | (k, b) :: rest =>
      if key < k then (key, a) :: (k, b) :: rest
      else if key = k then (key, a) :: rest
      else (k, b) :: insert key a rest

/-- The entries stand by ascending number, and no number stands twice. -/
def Ascending (entries : List (Nat × α)) : Prop := (entries.map Prod.fst).Pairwise (· < ·)

/-! ## Looking up -/

theorem lookup_cons_eq_ite {κ : Type} [BEq κ] [LawfulBEq κ] [DecidableEq κ]
    (k key : κ) (a : α) (rest : List (κ × α)) :
    ((key, a) :: rest).lookup k = if k = key then some a else rest.lookup k := by
  rw [List.lookup_cons]
  by_cases h : k = key
  · rw [if_pos h, h, beq_self_eq_true]
  · rw [if_neg h, beq_false_of_ne h]

theorem lookup_insert (key k : Nat) (a : α) (entries : List (Nat × α)) :
    (insert key a entries).lookup k = if k = key then some a else entries.lookup k := by
  induction entries with
  | nil => exact lookup_cons_eq_ite ..
  | cons entry rest ih =>
      obtain ⟨n, b⟩ := entry
      unfold insert
      split
      · exact lookup_cons_eq_ite ..
      · split
        · rename_i hn
          rw [lookup_cons_eq_ite, lookup_cons_eq_ite, hn]
          split <;> rfl
        · rename_i hn
          rw [lookup_cons_eq_ite, lookup_cons_eq_ite, ih]
          by_cases h : k = n
          · rw [if_pos h, if_neg (fun hk => hn (hk.symm.trans h)), if_pos h]
          · rw [if_neg h, if_neg h]

theorem isSome_lookup_iff : (entries.lookup k).isSome = true ↔
    k ∈ entries.map Prod.fst := by
  rw [List.lookup_isSome_iff, List.mem_map]
  simp only [beq_iff_eq, eq_comm (a := k)]

/-- A number that stands once is found where it stands. -/
theorem lookup_eq_some_iff (h : Ascending entries) :
    entries.lookup k = some a ↔ (k, a) ∈ entries := by
  induction entries with
  | nil => simp
  | cons entry rest ih =>
      obtain ⟨n, b⟩ := entry
      obtain ⟨hn, hrest⟩ := List.pairwise_cons.mp h
      rw [lookup_cons_eq_ite, List.mem_cons, Prod.mk.injEq]
      by_cases hk : k = n
      · subst hk
        have hnot : (k, a) ∉ rest := fun ha =>
          Nat.lt_irrefl k (hn k (List.mem_map_of_mem ha))
        simp [hnot, eq_comm]
      · rw [if_neg hk, ih hrest]
        simp [hk]

/-! ## Order -/

theorem mem_keys_insert :
    k ∈ (insert key a entries).map Prod.fst ↔ k = key ∨ k ∈ entries.map Prod.fst := by
  rw [← isSome_lookup_iff, ← isSome_lookup_iff, lookup_insert]
  by_cases h : k = key <;> simp [h]

theorem Ascending.insert (h : Ascending entries) (key : Nat) (a : α) :
    Ascending (Keyed.insert key a entries) := by
  induction entries with
  | nil => exact List.pairwise_singleton ..
  | cons entry rest ih =>
      obtain ⟨n, b⟩ := entry
      obtain ⟨hn, hrest⟩ := List.pairwise_cons.mp h
      unfold Keyed.insert
      split
      · rename_i hlt
        refine List.pairwise_cons.mpr ⟨fun k hk => ?_, h⟩
        rcases List.mem_cons.mp hk with rfl | hk
        · exact hlt
        · exact Nat.lt_trans hlt (hn k hk)
      · split
        · rename_i heq
          subst heq
          exact h
        · rename_i hnlt hne
          refine List.pairwise_cons.mpr ⟨fun k hk => ?_, ih hrest⟩
          rcases mem_keys_insert.mp hk with rfl | hk
          · exact Nat.lt_of_le_of_ne (Nat.le_of_not_lt hnlt) (Ne.symm hne)
          · exact hn k hk

/-- Ascending lists with the same members are one list. -/
theorem eq_of_ascending {xs ys : List Nat} (hx : xs.Pairwise (· < ·))
    (hy : ys.Pairwise (· < ·)) (h : ∀ i, i ∈ xs ↔ i ∈ ys) : xs = ys := by
  have hperm : xs.Perm ys := (List.perm_ext_iff_of_nodup (hx.imp Nat.ne_of_lt)
    (hy.imp Nat.ne_of_lt)).mpr h
  exact hperm.eq_of_pairwise (fun a b _ _ hab hba => absurd hab (Nat.lt_asymm hba)) hx hy

/-- A new entry for a number that is there leaves the numbers as they are. -/
theorem Ascending.keys_insert (h : Ascending entries)
    (hkey : key ∈ entries.map Prod.fst) :
    (Keyed.insert key a entries).map Prod.fst = entries.map Prod.fst := by
  refine eq_of_ascending (h.insert key a) h fun k => mem_keys_insert.trans ⟨?_, .inr⟩
  rintro (rfl | hk)
  · exact hkey
  · exact hk

end ActorScript.Keyed
