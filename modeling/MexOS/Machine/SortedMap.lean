import Mathlib.Data.List.Induction
import Mathlib.Data.List.Sort

/-! Maps as lists of entries in the order of their keys, and what a sequence of
insertions leaves in one. -/

namespace MexOS.Machine

namespace SortedMap

variable {κ ν : Type}

/-- The value that was given to a key last. -/
def latest [DecidableEq κ] (entries : List (κ × ν)) (key : κ) : Option ν :=
  (entries.filter fun entry => entry.1 = key).getLast?.map Prod.snd

theorem latest_append [DecidableEq κ] (entries : List (κ × ν)) (key other : κ) (value : ν) :
    latest (entries ++ [(key, value)]) other = if key = other then some value else latest entries other := by
  rw [latest, List.filter_append]
  by_cases same : key = other
  · rw [if_pos same, List.filter_cons_of_pos (by simpa using same), List.filter_nil, List.getLast?_concat]
    rfl
  · rw [if_neg same, List.filter_cons_of_neg (by simpa using same), List.filter_nil, List.append_nil]
    rfl

theorem latest_isSome_iff [DecidableEq κ] {entries : List (κ × ν)} {key : κ} :
    (latest entries key).isSome ↔ key ∈ entries.map Prod.fst := by
  rw [latest, Option.isSome_map, List.getLast?_isSome, Ne, List.filter_eq_nil_iff]
  simp [eq_comm]

theorem latest_map [DecidableEq κ] {μ : Type} (entries : List (κ × ν)) (cut : ν → μ) (key : κ) :
    latest (entries.map fun entry => (entry.1, cut entry.2)) key = (latest entries key).map cut := by
  rw [latest, latest, List.filter_map, List.getLast?_map, Option.map_map, Option.map_map]
  rfl

/-- The keys increase. -/
def Sorted [LT κ] (entries : List (κ × ν)) : Prop := entries.Pairwise fun entry later => entry.1 < later.1

variable [LinearOrder κ]

/-- Insert an entry at its place, or replace the value of the key. -/
def upsert : List (κ × ν) → κ → ν → List (κ × ν)
  | [], key, value => [(key, value)]
  | entry :: rest, key, value =>
    if key < entry.1 then (key, value) :: entry :: rest
    else if entry.1 = key then (key, value) :: rest
    else entry :: upsert rest key value

/-- What a sequence of insertions leaves. -/
def ofEntries (entries : List (κ × ν)) : List (κ × ν) :=
  entries.foldl (fun map entry => upsert map entry.1 entry.2) []

theorem ofEntries_append (entries : List (κ × ν)) (key : κ) (value : ν) :
    ofEntries (entries ++ [(key, value)]) = upsert (ofEntries entries) key value := by
  rw [ofEntries, List.foldl_append]
  rfl

variable {map other : List (κ × ν)} {key : κ} {value : ν}

theorem mem_upsert_of_ne {entry : κ × ν} (different : entry.1 ≠ key) : entry ∈ upsert map key value ↔ entry ∈ map := by
  have fresh : entry ≠ (key, value) := fun same => different (congrArg Prod.fst same)
  induction map with
  | nil => simp [upsert, fresh]
  | cons head rest ih =>
    rw [upsert]
    split
    · rw [List.mem_cons, or_iff_right fresh]
    · split
      · next same =>
        have apart : entry ≠ head := fun equal => different (equal ▸ same)
        rw [List.mem_cons, or_iff_right fresh, List.mem_cons, or_iff_right apart]
      · exact (List.mem_cons.trans (or_congr Iff.rfl ih)).trans List.mem_cons.symm

theorem Sorted.upsert (sorted : Sorted map) : Sorted (upsert map key value) := by
  induction map with
  | nil => exact List.pairwise_singleton _ _
  | cons head rest ih =>
    obtain ⟨above, sortedRest⟩ := List.pairwise_cons.mp sorted
    rw [SortedMap.upsert]
    split
    · next before =>
      refine List.pairwise_cons.mpr ⟨fun entry member => ?_, sorted⟩
      rcases List.mem_cons.mp member with rfl | later
      · exact before
      · exact before.trans (above entry later)
    · next behind =>
      split
      · next same => exact List.pairwise_cons.mpr ⟨fun entry member => same ▸ above entry member, sortedRest⟩
      · next different =>
        have before : head.1 < key := lt_of_le_of_ne (not_lt.mp behind) different
        refine List.pairwise_cons.mpr ⟨fun entry member => ?_, ih sortedRest⟩
        by_cases here : entry.1 = key
        · rwa [here]
        · exact above entry ((mem_upsert_of_ne here).mp member)

theorem mem_upsert_self (sorted : Sorted map) {found : ν} : (key, found) ∈ upsert map key value ↔ found = value := by
  induction map with
  | nil => simp [upsert]
  | cons head rest ih =>
    obtain ⟨above, sortedRest⟩ := List.pairwise_cons.mp sorted
    have absent (before : key ≤ head.1) : (key, found) ∉ rest := fun member =>
      absurd (above _ member) (not_lt.mpr before)
    rw [upsert]
    split
    · next before =>
      have apart : (key, found) ≠ head := fun same => before.ne (congrArg Prod.fst same)
      simp [apart, absent before.le]
    · split
      · next same => simp [absent same.ge]
      · next different =>
        have apart : (key, found) ≠ head := fun same => different (congrArg Prod.fst same).symm
        rw [List.mem_cons, or_iff_right apart, ih sortedRest]

theorem ofEntries_sorted (entries : List (κ × ν)) : Sorted (ofEntries entries) := by
  induction entries using List.reverseRecOn with
  | nil => exact List.Pairwise.nil
  | append_singleton entries entry ih =>
    rw [ofEntries_append]
    exact ih.upsert

/-- The map holds for each key the value that was given to it last. -/
theorem mem_ofEntries (entries : List (κ × ν)) (key : κ) (value : ν) :
    (key, value) ∈ ofEntries entries ↔ latest entries key = some value := by
  induction entries using List.reverseRecOn with
  | nil => simp [ofEntries, latest]
  | append_singleton entries entry ih =>
    rw [ofEntries_append, latest_append]
    by_cases here : entry.1 = key
    · rw [if_pos here, ← here, mem_upsert_self (ofEntries_sorted entries), Option.some.injEq, eq_comm]
    · rw [if_neg here, mem_upsert_of_ne (Ne.symm here), ih]

/-- No other sorted list does. -/
theorem eq_ofEntries_iff (entries : List (κ × ν)) : map = ofEntries entries ↔
    Sorted map ∧ (∀ key, key ∈ map.map Prod.fst ↔ key ∈ entries.map Prod.fst) ∧
      ∀ entry ∈ map, latest entries entry.1 = some entry.2 := by
  constructor
  · rintro rfl
    refine ⟨ofEntries_sorted entries, fun key => ?_, fun entry member => (mem_ofEntries _ _ _).mp member⟩
    rw [← @latest_isSome_iff _ _ _ entries, Option.isSome_iff_exists, List.mem_map]
    constructor
    · rintro ⟨entry, member, rfl⟩
      exact ⟨entry.2, (mem_ofEntries _ _ _).mp member⟩
    · rintro ⟨value, last⟩
      have member := (mem_ofEntries entries key value).mpr last
      exact ⟨(key, value), member, rfl⟩
  · rintro ⟨sorted, keys, values⟩
    have irreflexive : Std.Irrefl fun entry later : κ × ν => entry.1 < later.1 := ⟨fun entry => lt_irrefl entry.1⟩
    have antisymmetric : Std.Antisymm fun entry later : κ × ν => entry.1 < later.1 :=
      ⟨fun entry later before after => absurd before after.not_gt⟩
    refine List.Pairwise.eq_of_mem_iff sorted (ofEntries_sorted entries) fun entry => ?_
    rw [mem_ofEntries]
    constructor
    · exact values entry
    · intro last
      have known : entry.1 ∈ map.map Prod.fst := (keys entry.1).mpr (latest_isSome_iff.mp (last ▸ rfl))
      obtain ⟨same, member, key⟩ := List.mem_map.mp known
      have value := values same member
      rw [key, last, Option.some.injEq] at value
      rwa [Prod.ext key.symm value]

theorem upsert_of_gap {place : Nat} (before : ∀ entry ∈ map.take place, entry.1 < key)
    (behind : ∀ entry ∈ (map.drop place).head?, key < entry.1) :
    upsert map key value = map.take place ++ (key, value) :: map.drop place := by
  induction map generalizing place with
  | nil => simp [upsert]
  | cons head rest ih =>
    cases place with
    | zero => rw [upsert, if_pos (behind head rfl), List.take_zero, List.drop_zero, List.nil_append]
    | succ place =>
      rw [List.take_succ_cons] at before ⊢
      rw [List.drop_succ_cons] at behind ⊢
      have first : head.1 < key := before head List.mem_cons_self
      rw [upsert, if_neg first.not_gt, if_neg first.ne,
        ih (fun entry member => before entry (List.mem_cons_of_mem _ member)) behind, List.cons_append]

theorem upsert_of_present {place : Nat} (before : ∀ entry ∈ map.take place, entry.1 < key) {entry : κ × ν}
    (here : map[place]? = some entry) (same : entry.1 = key) : upsert map key value = map.set place (key, value) := by
  induction map generalizing place with
  | nil => simp at here
  | cons head rest ih =>
    cases place with
    | zero =>
      obtain rfl := Option.some.inj here
      rw [upsert, if_neg same.le.not_gt, if_pos same, List.set_cons_zero]
    | succ place =>
      rw [List.take_succ_cons] at before
      have first : head.1 < key := before head List.mem_cons_self
      rw [upsert, if_neg first.not_gt, if_neg first.ne, List.set_cons_succ,
        ih (fun entry member => before entry (List.mem_cons_of_mem _ member)) here]

end SortedMap

end MexOS.Machine
