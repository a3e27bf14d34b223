import Mathlib.Algebra.GroupWithZero.Nat
import Mathlib.Data.List.Chain

/-! A range of addresses cut into blocks that follow each other without gaps,
each with a header of `header` bytes. -/

namespace MexOS.Machine

structure Block where
  size : Nat
  used : Bool
deriving DecidableEq, Repr

namespace Block

variable (header : Nat)

/-- How many bytes the blocks and their headers take. -/
def extent (blocks : List Block) : Nat := (blocks.map fun block => header + block.size).sum

/-- Where the blocks in use start, when the first block starts at `address`. -/
def usedAddresses : Nat → List Block → List Nat
  | _, [] => []
  | address, block :: rest =>
    (if block.used then [address] else []) ++ usedAddresses (address + header + block.size) rest

/-- No two neighbours are both free. -/
def Separated (blocks : List Block) : Prop :=
  List.IsChain (fun left right => left.used = true ∨ right.used = true) blocks

/-- Join every run of free neighbours. -/
def coalesce : List Block → List Block
  | [] => []
  | [block] => [block]
  | left :: right :: rest =>
    if left.used = false ∧ right.used = false then
      coalesce (⟨left.size + header + right.size, false⟩ :: rest)
    else left :: coalesce (right :: rest)
termination_by blocks => blocks.length

variable {header : Nat}

@[simp] theorem extent_nil : extent header [] = 0 := rfl

@[simp] theorem extent_cons (block : Block) (rest : List Block) :
    extent header (block :: rest) = header + block.size + extent header rest := by
  simp [extent]

@[simp] theorem extent_append (front back : List Block) :
    extent header (front ++ back) = extent header front + extent header back := by
  simp [extent]

theorem usedAddresses_cons (address : Nat) (block : Block) (rest : List Block) :
    usedAddresses header address (block :: rest) =
      (if block.used then [address] else []) ++ usedAddresses header (address + header + block.size) rest := rfl

theorem usedAddresses_append (address : Nat) (front back : List Block) :
    usedAddresses header address (front ++ back) =
      usedAddresses header address front ++ usedAddresses header (address + extent header front) back := by
  induction front generalizing address with
  | nil => simp [usedAddresses]
  | cons block rest ih =>
    have next : address + header + block.size + extent header rest =
        address + (header + block.size + extent header rest) := by omega
    rw [List.cons_append, usedAddresses_cons, ih, usedAddresses_cons, extent_cons, next, List.append_assoc]

/-- A used address is the start of a used block. -/
theorem mem_usedAddresses {address place : Nat} {blocks : List Block} :
    place ∈ usedAddresses header address blocks ↔
      ∃ front size back, blocks = front ++ ⟨size, true⟩ :: back ∧ place = address + extent header front := by
  induction blocks generalizing address with
  | nil => simp [usedAddresses]
  | cons block rest ih =>
    rw [usedAddresses_cons, List.mem_append]
    constructor
    · intro member
      cases member with
      | inl here =>
        cases used : block.used with
        | false => simp [used] at here
        | true =>
          simp only [used, ↓reduceIte, List.mem_singleton] at here
          refine ⟨[], block.size, rest, ?_, by simp [here]⟩
          rw [← used]
          rfl
      | inr later =>
        obtain ⟨front, size, back, split, place⟩ := ih.mp later
        refine ⟨block :: front, size, back, by rw [split]; rfl, ?_⟩
        rw [place, extent_cons]
        omega
    · intro ⟨front, size, back, split, place⟩
      cases front with
      | nil =>
        left
        obtain ⟨same, _⟩ := List.cons.inj split
        subst same
        simp [place]
      | cons first front =>
        right
        obtain ⟨same, tail⟩ := List.cons.inj split
        subst same
        rw [ih]
        refine ⟨front, size, back, tail, ?_⟩
        rw [place, extent_cons]
        omega

theorem length_le_extent (blocks : List Block) : header * blocks.length ≤ extent header blocks := by
  induction blocks with
  | nil => simp
  | cons block rest ih =>
    rw [List.length_cons, extent_cons, Nat.mul_add]
    omega

theorem usedAddresses_coalesce (address : Nat) (blocks : List Block) :
    usedAddresses header address (coalesce header blocks) = usedAddresses header address blocks := by
  fun_induction coalesce header blocks generalizing address with
  | case1 => rfl
  | case2 => rfl
  | case3 left right rest free ih =>
    have next : address + header + (left.size + header + right.size) =
        address + header + left.size + header + right.size := by omega
    rw [ih]
    simp [usedAddresses_cons, free.1, free.2, next]
  | case4 left right rest busy ih => rw [usedAddresses_cons, ih, ← usedAddresses_cons]

theorem coalesce_ne_nil {blocks : List Block} (nonempty : blocks ≠ []) : coalesce header blocks ≠ [] := by
  fun_induction coalesce header blocks with
  | case1 => exact nonempty
  | case2 => exact nonempty
  | case3 left right rest free ih => exact ih (by simp)
  | case4 => simp

/-- The first block of the result is free only if that of the argument is. -/
theorem head_coalesce {block : Block} {rest : List Block} :
    ∃ size tail, coalesce header (block :: rest) = ⟨size, block.used⟩ :: tail := by
  induction rest generalizing block with
  | nil => exact ⟨block.size, [], by simp [coalesce]⟩
  | cons right rest ih =>
    rw [coalesce]
    split
    · next free =>
      rw [free.1]
      exact ih
    · exact ⟨block.size, coalesce header (right :: rest), rfl⟩

theorem separated_coalesce (blocks : List Block) : Separated (coalesce header blocks) := by
  fun_induction coalesce header blocks with
  | case1 => exact .nil
  | case2 => exact .singleton _
  | case3 left right rest free ih => exact ih
  | case4 left right rest busy ih =>
    obtain ⟨size, tail, head⟩ := @head_coalesce header right rest
    rw [head] at ih ⊢
    refine .cons_cons ?_ ih
    cases leftUsed : left.used <;> cases rightUsed : right.used <;> simp_all

/-- All sizes are multiples of the granule. -/
def Grained (granule : Nat) (blocks : List Block) : Prop := ∀ block ∈ blocks, granule ∣ block.size

theorem Grained.coalesce {granule : Nat} (whole : granule ∣ header) {blocks : List Block}
    (grained : Grained granule blocks) : Grained granule (coalesce header blocks) := by
  fun_induction Block.coalesce header blocks with
  | case1 => exact grained
  | case2 => exact grained
  | case3 left right rest free ih =>
    apply ih
    intro block member
    obtain same | later := List.mem_cons.mp member
    · subst same
      exact Nat.dvd_add (Nat.dvd_add (grained left (by simp)) whole) (grained right (by simp))
    · exact grained block (by simp [later])
  | case4 left right rest busy ih =>
    intro block member
    obtain same | later := List.mem_cons.mp member
    · exact grained block (by simp [same])
    · exact ih (fun other inside => grained other (List.mem_cons_of_mem _ inside)) block later

theorem Grained.of_sizes {granule : Nat} {blocks other : List Block} (grained : Grained granule blocks)
    (sizes : other.map Block.size = blocks.map Block.size) : Grained granule other := by
  intro block member
  have listed : block.size ∈ blocks.map Block.size := by
    rw [← sizes]
    exact List.mem_map_of_mem member
  obtain ⟨old, inside, same⟩ := List.mem_map.mp listed
  rw [← same]
  exact grained old inside

/-- The last block is not empty, so its payload starts before the end. -/
def Ends (blocks : List Block) : Prop := ∀ block ∈ blocks.getLast?, 0 < block.size

theorem Ends.of_sizes {blocks other : List Block} (ends : Ends blocks)
    (sizes : other.map Block.size = blocks.map Block.size) : Ends other := by
  intro block member
  have listed : block.size ∈ (blocks.map Block.size).getLast? := by
    rw [← sizes, List.getLast?_map]
    exact Option.mem_map_of_mem Block.size member
  rw [List.getLast?_map, Option.mem_def, Option.map_eq_some_iff] at listed
  obtain ⟨old, inside, same⟩ := listed
  rw [← same]
  exact ends old inside

theorem Ends.coalesce {blocks : List Block} (ends : Ends blocks) : Ends (coalesce header blocks) := by
  fun_induction Block.coalesce header blocks with
  | case1 => exact ends
  | case2 => exact ends
  | case3 left right rest free ih =>
    apply ih
    intro block member
    cases rest with
    | nil =>
      have last := ends right (by simp)
      simp only [List.getLast?_singleton, Option.mem_def, Option.some.injEq] at member
      subst member
      exact Nat.lt_of_lt_of_le last (Nat.le_add_left _ _)
    | cons next rest => exact ends block (by simpa using member)
  | case4 left right rest busy ih =>
    have tail := ih fun block member => ends block (by simpa using member)
    intro block member
    apply tail block
    rwa [List.getLast?_cons_of_ne_nil (coalesce_ne_nil (by simp))] at member

theorem Separated.allocate {front back : List Block} {old new : Nat}
    (separated : Separated (front ++ ⟨old, false⟩ :: back)) : Separated (front ++ ⟨new, true⟩ :: back) := by
  obtain ⟨before, after⟩ := List.isChain_split.mp separated
  apply List.isChain_split.mpr
  constructor
  · rw [List.isChain_append] at before ⊢
    exact ⟨before.1, .singleton _, by simp⟩
  · rw [List.isChain_cons] at after ⊢
    exact ⟨by simp, after.2⟩

theorem Separated.carve {front back : List Block} {old new rest : Nat}
    (separated : Separated (front ++ ⟨old, false⟩ :: back)) :
    Separated (front ++ ⟨new, true⟩ :: ⟨rest, false⟩ :: back) := by
  obtain ⟨_, after⟩ := List.isChain_split.mp separated
  have taken := @Separated.allocate front back old new separated
  obtain ⟨before, _⟩ := List.isChain_split.mp taken
  apply List.isChain_split.mpr
  refine ⟨before, .cons_cons (.inl rfl) ?_⟩
  rw [List.isChain_cons] at after ⊢
  exact after

/-- When nothing is in use, one free block is left. -/
theorem single_of_unused {blocks : List Block} (nonempty : blocks ≠ []) (separated : Separated blocks)
    {address : Nat} (unused : usedAddresses header address blocks = []) : ∃ size, blocks = [⟨size, false⟩] := by
  cases blocks with
  | nil => exact absurd rfl nonempty
  | cons first rest =>
    rw [usedAddresses_cons, List.append_eq_nil_iff] at unused
    have firstFree : first.used = false := by
      cases used : first.used with
      | false => rfl
      | true => simp [used] at unused
    cases rest with
    | nil =>
      refine ⟨first.size, ?_⟩
      rw [← firstFree]
    | cons second rest =>
      have secondUsed : second.used = true := by
        have apart := (List.isChain_cons_cons.mp separated).1
        simpa [firstFree] using apart
      have inUse := unused.2
      simp [usedAddresses_cons, secondUsed] at inUse

theorem Grained.extent {granule : Nat} (whole : granule ∣ header) {blocks : List Block}
    (grained : Grained granule blocks) : granule ∣ extent header blocks := by
  induction blocks with
  | nil => exact Nat.dvd_zero granule
  | cons block rest ih =>
    rw [extent_cons]
    exact Nat.dvd_add (Nat.dvd_add whole (grained block (by simp)))
      (ih fun other member => grained other (List.mem_cons_of_mem _ member))

/-- Two blocks of one list are the same, or one lies behind the other. -/
theorem split_cases {front front' back back' : List Block} {block block' : Block}
    (same : front ++ block :: back = front' ++ block' :: back') :
    front = front' ∧ block = block' ∨
      extent header front + header + block.size ≤ extent header front' ∨
      extent header front' + header + block'.size ≤ extent header front := by
  induction front generalizing front' with
  | nil =>
    cases front' with
    | nil => exact .inl ⟨rfl, (List.cons.inj same).1⟩
    | cons first rest =>
      obtain ⟨head, _⟩ := List.cons.inj same
      subst head
      right
      left
      rw [extent_nil, extent_cons]
      omega
  | cons first rest ih =>
    cases front' with
    | nil =>
      obtain ⟨head, _⟩ := List.cons.inj same
      subst head
      right
      right
      rw [extent_nil, extent_cons]
      omega
    | cons first' rest' =>
      obtain ⟨head, tail⟩ := List.cons.inj same
      subst head
      obtain ⟨equal, here⟩ | before | behind := ih tail
      · exact .inl ⟨by rw [equal], here⟩
      · right
        left
        rw [extent_cons, extent_cons]
        omega
      · right
        right
        rw [extent_cons, extent_cons]
        omega

theorem le_of_mem_usedAddresses {address place : Nat} {blocks : List Block}
    (member : place ∈ usedAddresses header address blocks) : address ≤ place := by
  obtain ⟨front, size, back, _, here⟩ := mem_usedAddresses.mp member
  omega

theorem nodup_usedAddresses (positive : 0 < header) (address : Nat) (blocks : List Block) :
    (usedAddresses header address blocks).Nodup := by
  induction blocks generalizing address with
  | nil => exact List.nodup_nil
  | cons block rest ih =>
    have later := ih (address + header + block.size)
    rw [usedAddresses_cons]
    split
    · rw [List.singleton_append, List.nodup_cons]
      refine ⟨?_, later⟩
      intro member
      have bound := le_of_mem_usedAddresses member
      omega
    · exact later

/-- Replacing a free block by blocks of which the first alone is in use adds
the address of that block. -/
theorem usedAddresses_allocate {address old : Nat} {front back new : List Block}
    (whole : extent header new = header + old)
    (first : usedAddresses header (address + extent header front) new = [address + extent header front]) :
    (usedAddresses header address (front ++ (new ++ back))).Perm
      ((address + extent header front) :: usedAddresses header address (front ++ ⟨old, false⟩ :: back)) := by
  rw [usedAddresses_append, usedAddresses_append, usedAddresses_append, first, whole, usedAddresses_cons]
  simp only [Bool.false_eq_true, ↓reduceIte, List.nil_append, List.singleton_append, ← Nat.add_assoc]
  exact List.perm_middle

/-- Freeing a block removes its address alone. -/
theorem usedAddresses_free (positive : 0 < header) {address size : Nat} {front back : List Block} :
    usedAddresses header address (front ++ ⟨size, false⟩ :: back) =
      (usedAddresses header address (front ++ ⟨size, true⟩ :: back)).erase (address + extent header front) := by
  have distinct := nodup_usedAddresses positive address (front ++ ⟨size, true⟩ :: back)
  rw [usedAddresses_append, usedAddresses_append, usedAddresses_cons, usedAddresses_cons] at *
  simp only [Bool.false_eq_true, ↓reduceIte, List.nil_append, List.singleton_append] at *
  rw [List.nodup_append] at distinct
  have absent : address + extent header front ∉ usedAddresses header address front := by
    intro member
    exact distinct.2.2 _ member _ List.mem_cons_self rfl
  rw [List.erase_append_right _ absent, List.erase_cons_head]

section UsedBlocks

/-- The blocks in use: where they start and how many bytes they hold. -/
def usedBlocks (header : Nat) : Nat → List Block → List (Nat × Nat)
  | _, [] => []
  | address, block :: rest =>
    (if block.used then [(address, block.size)] else []) ++ usedBlocks header (address + header + block.size) rest

theorem usedBlocks_cons (address : Nat) (block : Block) (rest : List Block) :
    usedBlocks header address (block :: rest) = (if block.used then [(address, block.size)] else []) ++
      usedBlocks header (address + header + block.size) rest := rfl

theorem usedBlocks_append (address : Nat) (front back : List Block) :
    usedBlocks header address (front ++ back) =
      usedBlocks header address front ++ usedBlocks header (address + extent header front) back := by
  induction front generalizing address with
  | nil => simp [usedBlocks]
  | cons block rest ih =>
    have next : address + header + block.size + extent header rest =
        address + (header + block.size + extent header rest) := by omega
    rw [List.cons_append, usedBlocks_cons, ih, usedBlocks_cons, extent_cons, next, List.append_assoc]

theorem map_usedBlocks (address : Nat) (blocks : List Block) :
    (usedBlocks header address blocks).map Prod.fst = usedAddresses header address blocks := by
  induction blocks generalizing address with
  | nil => rfl
  | cons block rest ih =>
    rw [usedBlocks_cons, usedAddresses_cons, List.map_append, ih]
    cases block.used <;> rfl

theorem le_of_mem_usedBlocks {address : Nat} {blocks : List Block} {entry : Nat × Nat}
    (member : entry ∈ usedBlocks header address blocks) : address ≤ entry.1 := by
  have used : entry.1 ∈ usedAddresses header address blocks := by
    rw [← map_usedBlocks]
    exact List.mem_map_of_mem member
  exact le_of_mem_usedAddresses used

theorem usedBlocks_coalesce (address : Nat) (blocks : List Block) :
    usedBlocks header address (coalesce header blocks) = usedBlocks header address blocks := by
  fun_induction coalesce header blocks generalizing address with
  | case1 => rfl
  | case2 => rfl
  | case3 left right rest free ih =>
    have next : address + header + (left.size + header + right.size) =
        address + header + left.size + header + right.size := by omega
    rw [ih]
    simp [usedBlocks_cons, free.1, free.2, next]
  | case4 left right rest busy ih => rw [usedBlocks_cons, ih, ← usedBlocks_cons]

/-- They are listed in the order of their addresses. -/
theorem sorted_usedBlocks (positive : 0 < header) (address : Nat) (blocks : List Block) :
    (usedBlocks header address blocks).Pairwise fun left right => left.1 < right.1 := by
  induction blocks generalizing address with
  | nil => exact .nil
  | cons block rest ih =>
    rw [usedBlocks_cons]
    split
    · rw [List.singleton_append, List.pairwise_cons]
      refine ⟨?_, ih _⟩
      intro entry member
      have bound := le_of_mem_usedBlocks member
      omega
    · exact ih _

/-- Behind a free block that no other free block follows the next block in use
tells how large it is. -/
theorem usedBlocks_behind_free {address size : Nat} {rest : List Block}
    (separated : Separated (⟨size, false⟩ :: rest)) :
    rest = [] ∨ ∃ bytes tail, usedBlocks header address (⟨size, false⟩ :: rest) =
      (address + header + size, bytes) :: tail := by
  cases rest with
  | nil => exact .inl rfl
  | cons follower rest =>
    have used : follower.used = true := by
      have apart := (List.isChain_cons_cons.mp separated).1
      simpa using apart
    right
    simp [usedBlocks_cons, used]

/-- A list without free neighbours is known from the blocks in use. -/
theorem eq_of_usedBlocks (positive : 0 < header) {address : Nat} {blocks other : List Block}
    (separated : Separated blocks) (otherSeparated : Separated other) (whole : extent header blocks = extent header other)
    (same : usedBlocks header address blocks = usedBlocks header address other) : blocks = other := by
  induction blocks generalizing address other with
  | nil =>
    cases other with
    | nil => rfl
    | cons block rest =>
      rw [extent_nil, extent_cons] at whole
      omega
  | cons block rest ih =>
    cases other with
    | nil =>
      rw [extent_nil, extent_cons] at whole
      omega
    | cons block' rest' =>
      have tail := (List.isChain_cons.mp separated).2
      have tail' := (List.isChain_cons.mp otherSeparated).2
      obtain ⟨size, used⟩ := block
      obtain ⟨size', used'⟩ := block'
      rw [extent_cons, extent_cons] at whole
      simp only at whole
      cases used with
      | true =>
        cases used' with
        | true =>
          simp only [usedBlocks_cons, ↓reduceIte, List.singleton_append, List.cons.injEq, Prod.mk.injEq, true_and] at same
          obtain ⟨sizes, rests⟩ := same
          subst sizes
          rw [ih tail tail' (by omega) rests]
        | false =>
          simp only [usedBlocks_cons, ↓reduceIte, List.singleton_append, Bool.false_eq_true, List.nil_append] at same
          have bound := @le_of_mem_usedBlocks header _ rest' (address, size) (same ▸ List.mem_cons_self)
          simp only at bound
          omega
      | false =>
        cases used' with
        | true =>
          simp only [usedBlocks_cons, ↓reduceIte, List.singleton_append, Bool.false_eq_true, List.nil_append] at same
          have bound := @le_of_mem_usedBlocks header _ rest (address, size') (same.symm ▸ List.mem_cons_self)
          simp only at bound
          omega
        | false =>
          have sizes : size = size' := by
            rcases @usedBlocks_behind_free header address _ _ separated with last | ⟨bytes, others, first⟩
            · rcases @usedBlocks_behind_free header address _ _ otherSeparated with last' | ⟨bytes', others', first'⟩
              · rw [last, last', extent_nil] at whole
                omega
              · rw [first', last] at same
                cases same
            · rcases @usedBlocks_behind_free header address _ _ otherSeparated with last' | ⟨bytes', others', first'⟩
              · rw [first, last'] at same
                cases same
              · rw [first, first', List.cons.injEq, Prod.mk.injEq] at same
                omega
          subst sizes
          simp only [usedBlocks_cons, Bool.false_eq_true, ↓reduceIte, List.nil_append] at same
          rw [ih tail tail' (by omega) same]

theorem eq_of_perm_usedBlocks (positive : 0 < header) {address : Nat} {blocks other : List Block}
    (separated : Separated blocks) (otherSeparated : Separated other) (whole : extent header blocks = extent header other)
    (same : (usedBlocks header address blocks).Perm (usedBlocks header address other)) : blocks = other := by
  apply eq_of_usedBlocks positive separated otherSeparated whole
  refine List.Perm.eq_of_pairwise ?_ (sorted_usedBlocks positive address blocks)
    (sorted_usedBlocks positive address other) same
  intro left right _ _ below above
  omega

theorem mem_usedBlocks {address place size : Nat} {blocks : List Block}
    (member : (place, size) ∈ usedBlocks header address blocks) :
    ∃ front back, blocks = front ++ ⟨size, true⟩ :: back ∧ place = address + extent header front := by
  induction blocks generalizing address with
  | nil => cases member
  | cons block rest ih =>
    rw [usedBlocks_cons, List.mem_append] at member
    rcases member with here | later
    · obtain ⟨bytes, used⟩ := block
      cases used with
      | false => cases here
      | true =>
        simp only [↓reduceIte, List.mem_singleton, Prod.mk.injEq] at here
        obtain ⟨rfl, rfl⟩ := here
        exact ⟨[], rest, rfl, rfl⟩
    · obtain ⟨front, back, split, here⟩ := ih later
      refine ⟨block :: front, back, by rw [split]; rfl, ?_⟩
      rw [here, extent_cons]
      omega

theorem usedBlocks_allocate {address old bytes : Nat} {front back new : List Block}
    (whole : extent header new = header + old)
    (first : usedBlocks header (address + extent header front) new = [(address + extent header front, bytes)]) :
    (usedBlocks header address (front ++ (new ++ back))).Perm
      ((address + extent header front, bytes) :: usedBlocks header address (front ++ ⟨old, false⟩ :: back)) := by
  rw [usedBlocks_append, usedBlocks_append, usedBlocks_append, first, whole, usedBlocks_cons]
  simp only [Bool.false_eq_true, ↓reduceIte, List.nil_append, List.singleton_append, ← Nat.add_assoc]
  exact List.perm_middle

theorem usedBlocks_free {address size : Nat} {front back : List Block} :
    (usedBlocks header address (front ++ ⟨size, true⟩ :: back)).Perm
      ((address + extent header front, size) :: usedBlocks header address (front ++ ⟨size, false⟩ :: back)) := by
  rw [usedBlocks_append, usedBlocks_append, usedBlocks_cons, usedBlocks_cons]
  simp only [Bool.false_eq_true, ↓reduceIte, List.nil_append, List.singleton_append]
  exact List.perm_middle

/-- Blocks in use do not overlap. -/
theorem usedBlocks_apart {address : Nat} {blocks : List Block} {left right : Nat × Nat}
    (first : left ∈ usedBlocks header address blocks) (second : right ∈ usedBlocks header address blocks) :
    left = right ∨ left.1 + header + left.2 ≤ right.1 ∨ right.1 + header + right.2 ≤ left.1 := by
  obtain ⟨front, back, found, place⟩ := mem_usedBlocks first
  obtain ⟨front', back', found', place'⟩ := mem_usedBlocks second
  rw [found] at found'
  rcases @split_cases header _ _ _ _ _ _ found' with ⟨same, equal⟩ | before | behind
  · left
    rw [Block.mk.injEq] at equal
    exact Prod.ext (by rw [place, place', same]) equal.1
  · simp only at before
    exact .inr (.inl (by omega))
  · simp only at behind
    exact .inr (.inr (by omega))

end UsedBlocks

/-- A free block that `size` bytes fit into. -/
def Fits (size : Nat) (block : Block) : Prop := block.used = false ∧ size ≤ block.size

/-- The first of the smallest free blocks that `size` bytes fit into. -/
structure BestFit (blocks : List Block) (size : Nat) (front : List Block) (old : Nat) (back : List Block) : Prop where
  found : blocks = front ++ ⟨old, false⟩ :: back
  enough : size ≤ old
  least : ∀ block ∈ blocks, block.Fits size → old ≤ block.size
  first : ∀ block ∈ front, block.Fits size → old < block.size

theorem BestFit.cons {blocks front back : List Block} {size old : Nat} (best : BestFit blocks size front old back)
    {block : Block} (larger : block.Fits size → old < block.size) :
    BestFit (block :: blocks) size (block :: front) old back where
  found := by rw [best.found, List.cons_append]
  enough := best.enough
  least other member fits := by
    rcases List.mem_cons.mp member with rfl | later
    · exact Nat.le_of_lt (larger fits)
    · exact best.least other later fits
  first other member fits := by
    rcases List.mem_cons.mp member with rfl | later
    · exact larger fits
    · exact best.first other later fits

theorem BestFit.head {rest : List Block} {size old : Nat} (enough : size ≤ old)
    (least : ∀ block ∈ rest, block.Fits size → old ≤ block.size) :
    BestFit (⟨old, false⟩ :: rest) size [] old rest where
  found := rfl
  enough := enough
  least block member fits := by
    rcases List.mem_cons.mp member with rfl | later
    · exact Nat.le_refl _
    · exact least block later fits
  first block member := by cases member

theorem BestFit.single {front back : List Block} {whole size old : Nat}
    (best : BestFit [⟨whole, false⟩] size front old back) : front = [] ∧ old = whole ∧ back = [] := by
  have found := best.found
  cases front with
  | nil =>
    obtain ⟨same, none⟩ := List.cons.inj found
    exact ⟨rfl, (Block.mk.inj same).1.symm, none.symm⟩
  | cons _ front => simp at found

/-- The bytes of the blocks in use, with their headers. -/
def inUse (header : Nat) (blocks : List Block) : Nat :=
  ((blocks.filter Block.used).map fun block => block.size + header).sum

theorem inUse_append (front back : List Block) : inUse header (front ++ back) = inUse header front + inUse header back := by
  simp [inUse]

theorem inUse_cons (block : Block) (rest : List Block) :
    inUse header (block :: rest) = (if block.used then block.size + header else 0) + inUse header rest := by
  cases used : block.used <;> simp [inUse, used]

theorem inUse_coalesce (blocks : List Block) : inUse header (coalesce header blocks) = inUse header blocks := by
  fun_induction coalesce header blocks with
  | case1 => rfl
  | case2 => rfl
  | case3 left right rest free ih =>
    rw [ih]
    simp [inUse_cons, free.1, free.2]
  | case4 left right rest busy ih => rw [inUse_cons, ih, ← inUse_cons]

theorem inUse_le_extent (blocks : List Block) : inUse header blocks ≤ extent header blocks := by
  induction blocks with
  | nil => simp [inUse]
  | cons block rest ih =>
    rw [inUse_cons, extent_cons]
    split <;> omega

/-- A free block takes at least its header from what can be in use. -/
theorem inUse_of_free {blocks : List Block} {block : Block} (member : block ∈ blocks) (free : block.used = false) :
    inUse header blocks + header ≤ extent header blocks := by
  obtain ⟨front, back, split⟩ := List.mem_iff_append.mp member
  have before := @inUse_le_extent header front
  have behind := @inUse_le_extent header back
  rw [split, inUse_append, inUse_cons, extent_append, extent_cons, if_neg (by simp [free])]
  omega

/-- Joining free neighbours leaves a free block. -/
theorem free_coalesce {blocks : List Block} (free : ∃ block ∈ blocks, block.used = false) :
    ∃ block ∈ coalesce header blocks, block.used = false := by
  fun_induction coalesce header blocks with
  | case1 => exact free
  | case2 => exact free
  | case3 left right rest both ih => exact ih ⟨_, List.mem_cons_self, rfl⟩
  | case4 left right rest busy ih =>
    obtain ⟨block, member, unused⟩ := free
    rcases List.mem_cons.mp member with rfl | later
    · exact ⟨_, List.mem_cons_self, unused⟩
    · obtain ⟨joined, inside, still⟩ := ih ⟨block, later, unused⟩
      exact ⟨joined, List.mem_cons_of_mem _ inside, still⟩

/-- The byte at `place` belongs to none of the headers. -/
def OffHeaders (header address : Nat) (blocks : List Block) (place : Nat) : Prop :=
  ∀ front block back, blocks = front ++ block :: back →
    place < address + extent header front ∨ address + extent header front + header ≤ place

section OffHeaders

variable {address place : Nat} {left right block : Block} {front back rest blocks : List Block}

theorem OffHeaders.head (off : OffHeaders header address (block :: rest) place) : place < address ∨ address + header ≤ place := by
  have first := off [] block rest rfl
  rwa [extent_nil, Nat.add_zero] at first

theorem OffHeaders.tail (off : OffHeaders header address (block :: rest) place) :
    OffHeaders header (address + header + block.size) rest place := by
  intro front other back split
  have later := off (block :: front) other back (by rw [split, List.cons_append])
  rw [extent_cons] at later
  omega

theorem OffHeaders.cons (first : place < address ∨ address + header ≤ place)
    (later : OffHeaders header (address + header + block.size) rest place) : OffHeaders header address (block :: rest) place := by
  intro front other back split
  cases front with
  | nil => exact first
  | cons head front =>
    obtain ⟨rfl, tail⟩ := List.cons.inj split
    have behind := later front other back tail
    rw [extent_cons]
    omega

/-- A joined block has the header of its first part. -/
theorem OffHeaders.join (off : OffHeaders header address (left :: right :: rest) place) (used : Bool) :
    OffHeaders header address (⟨left.size + header + right.size, used⟩ :: rest) place := by
  refine off.head.elim (fun before => .cons (.inl before) ?_) fun behind => .cons (.inr behind) ?_
  all_goals
    have same : address + header + (left.size + header + right.size) =
        address + header + left.size + header + right.size := by omega
    rw [same]
    exact off.tail.tail

/-- Only the sizes matter. -/
theorem OffHeaders.of_sizes {other : List Block} (off : OffHeaders header address blocks place)
    (sizes : other.map Block.size = blocks.map Block.size) : OffHeaders header address other place := by
  induction blocks generalizing address other with
  | nil =>
    rw [List.map_nil, List.map_eq_nil_iff] at sizes
    rw [sizes]
    exact off
  | cons block rest ih =>
    obtain ⟨first, others, rfl, size, more⟩ := List.map_eq_cons_iff.mp sizes
    refine .cons off.head ?_
    rw [size]
    exact ih off.tail more

/-- The bytes of a block lie behind its header and before the next one. -/
theorem offHeaders_payload (split : blocks = front ++ block :: back) (lower : address + extent header front + header ≤ place)
    (upper : place < address + extent header front + header + block.size) : OffHeaders header address blocks place := by
  intro front' block' back' split'
  rw [split] at split'
  rcases @split_cases header _ _ _ _ _ _ split' with ⟨same, _⟩ | before | behind
  · rw [← same]
    exact .inr lower
  · exact .inl (by omega)
  · exact .inr (by omega)

end OffHeaders

end Block

end MexOS.Machine
