import MexOS.Mm.PageTables

/-! The blocks that belong to an address space, read off its directory and
tables, and how they stand in the frame allocator. -/

namespace MexOS.Mm.Paging

open MexOS.Machine

/-- The block that an entry of a directory or table points to. -/
def entryBlock (word : Word) : List Word := if word &&& pagePresent ≠ 0 then [pageOf word] else []

def pageBlocks (p : Paging) (table : Word) : List Word :=
  (List.range 1024).flatMap fun j => entryBlock (p.entry table (BitVec.ofNat 32 j))

def tableBlocks (p : Paging) (pageDir : Word) (i : Nat) : List Word :=
  (entryBlock (p.entry pageDir (BitVec.ofNat 32 i))).flatMap fun table => p.pageBlocks table ++ [table]

/-- The pages and tables of the user half and the directory, in the order in
which `vmm_destroy_address_space` frees them. -/
def owned (p : Paging) (pageDir : Word) : List Word := (List.range 768).flatMap (p.tableBlocks pageDir) ++ [pageDir]

variable {p q : Paging} {pageDir index table value : Word}

theorem entryBlock_present {word : Word} (present : word &&& pagePresent ≠ 0) : entryBlock word = [pageOf word] := if_pos present

theorem entryBlock_absent {word : Word} (absent : word &&& pagePresent = 0) : entryBlock word = [] :=
  if_neg fun present => present absent

theorem HasTable.entryBlock_eq (has : p.HasTable pageDir index table) : entryBlock (p.entry pageDir index) = [table] := by
  rw [entryBlock_present has.present, has.points]

theorem ofNat_toNat_index (index : Word) : BitVec.ofNat 32 index.toNat = index := by simp

theorem toNat_ofNat_index {i : Nat} (small : i < 1024) : (BitVec.ofNat 32 i).toNat = i := by
  rw [BitVec.toNat_ofNat]
  omega

theorem HasTable.tableBlocks_eq (has : p.HasTable pageDir index table) :
    p.tableBlocks pageDir index.toNat = p.pageBlocks table ++ [table] := by
  rw [tableBlocks, ofNat_toNat_index, has.entryBlock_eq, List.flatMap_singleton]

theorem HasTable.mem_owned (has : p.HasTable pageDir index table) (user : index.toNat < 768) {block : Word}
    (member : block ∈ p.pageBlocks table ++ [table]) : block ∈ p.owned pageDir := by
  apply List.mem_append_left
  apply List.mem_flatMap.mpr
  refine ⟨index.toNat, List.mem_range.mpr user, ?_⟩
  rwa [has.tableBlocks_eq]

theorem mem_pageBlocks {j : Word} (small : j.toNat < 1024) (present : p.entry table j &&& pagePresent ≠ 0) :
    pageOf (p.entry table j) ∈ p.pageBlocks table := by
  apply List.mem_flatMap.mpr
  refine ⟨j.toNat, List.mem_range.mpr small, ?_⟩
  rw [ofNat_toNat_index, entryBlock_present present]
  exact List.mem_singleton_self _

/-- With distinct blocks, a table stands behind one directory entry. -/
theorem table_once (distinct : (p.owned pageDir).Nodup) (has : p.HasTable pageDir index table) (user : index.toNat < 768)
    {other : Word} (otherUser : other.toNat < 768) (again : p.HasTable pageDir other table) : other = index := by
  have parts := (List.nodup_append.mp distinct).1
  have inside (index : Word) (has : p.HasTable pageDir index table) : table ∈ p.tableBlocks pageDir index.toNat := by
    rw [has.tableBlocks_eq]
    exact List.mem_append_right _ (List.mem_singleton_self _)
  have same := eq_of_mem_flatMap_nodup parts (List.mem_range.mpr otherUser) (List.mem_range.mpr user)
    (inside _ again) (inside _ has)
  exact BitVec.eq_of_toNat_eq same

theorem table_ne_directory (distinct : (p.owned pageDir).Nodup) (has : p.HasTable pageDir index table)
    (user : index.toNat < 768) : table ≠ pageDir := by
  have apart := (List.nodup_append.mp distinct).2.2
  have inside : table ∈ (List.range 768).flatMap (p.tableBlocks pageDir) := by
    apply List.mem_flatMap.mpr
    refine ⟨index.toNat, List.mem_range.mpr user, ?_⟩
    rw [has.tableBlocks_eq]
    exact List.mem_append_right _ (List.mem_singleton_self _)
  exact apart table inside pageDir (List.mem_singleton_self _)

theorem tableBlocks_congr {i : Nat} (small : i < 768)
    (directory : q.entry pageDir (BitVec.ofNat 32 i) = p.entry pageDir (BitVec.ofNat 32 i))
    (tables : ∀ table, p.HasTable pageDir (BitVec.ofNat 32 i) table →
      ∀ j : Word, j.toNat < 1024 → q.entry table j = p.entry table j) :
    q.tableBlocks pageDir i = p.tableBlocks pageDir i := by
  unfold tableBlocks
  rw [directory]
  apply List.flatMap_congr
  intro table present
  have has : p.HasTable pageDir (BitVec.ofNat 32 i) table := by
    unfold entryBlock at present
    split at present
    · next set => exact ⟨by rw [toNat_ofNat_index (by omega)]; omega, set, (List.mem_singleton.mp present).symm⟩
    · cases present
  have pages : q.pageBlocks table = p.pageBlocks table := by
    apply List.flatMap_congr
    intro j member
    have bound := List.mem_range.mp member
    rw [tables table has _ (by rwa [toNat_ofNat_index bound])]
  rw [pages]

/-- Nothing the lookup reads is different. -/
theorem owned_congr (directory : ∀ i : Word, i.toNat < 768 → q.entry pageDir i = p.entry pageDir i)
    (tables : ∀ (i table : Word), i.toNat < 768 → p.HasTable pageDir i table →
      ∀ j : Word, j.toNat < 1024 → q.entry table j = p.entry table j) :
    q.owned pageDir = p.owned pageDir := by
  have blocks : (List.range 768).flatMap (q.tableBlocks pageDir) = (List.range 768).flatMap (p.tableBlocks pageDir) := by
    apply List.flatMap_congr
    intro i member
    have bound := List.mem_range.mp member
    have small : (BitVec.ofNat 32 i).toNat < 768 := by rwa [toNat_ofNat_index (by omega)]
    exact tableBlocks_congr bound (directory _ small) fun table => tables _ table small
  rw [owned, owned, blocks]

/-- One entry of a table that was not present gets a value. -/
theorem owned_perm_of_entry {j : Word} (has : p.HasTable pageDir index table) (user : index.toNat < 768) (small : j.toNat < 1024)
    (once : ∀ other : Word, other.toNat < 768 → p.HasTable pageDir other table → other = index)
    (absent : p.entry table j &&& pagePresent = 0)
    (directory : ∀ i : Word, i.toNat < 768 → q.entry pageDir i = p.entry pageDir i)
    (tables : ∀ i other, i.toNat < 768 → p.HasTable pageDir i other → ∀ k : Word, k.toNat < 1024 →
      q.entry other k = if table = other ∧ j = k then value else p.entry other k) :
    (q.owned pageDir).Perm (entryBlock value ++ p.owned pageDir) := by
  have after : q.HasTable pageDir index table := by
    refine ⟨has.small, ?_, ?_⟩
    · rw [directory index user]
      exact has.present
    · rw [directory index user]
      exact has.points
  have pages : (q.pageBlocks table).Perm (entryBlock value ++ p.pageBlocks table) := by
    apply flatMap_perm_of_slot List.nodup_range (List.mem_range.mpr small)
    · intro k member different
      have bound := List.mem_range.mp member
      have other : ¬ (table = table ∧ j = BitVec.ofNat 32 k) := by
        rintro ⟨_, rfl⟩
        exact different (toNat_ofNat_index bound).symm
      rw [tables index table user has _ (by rwa [toNat_ofNat_index bound]), if_neg other]
    · rw [ofNat_toNat_index, tables index table user has j small, if_pos ⟨rfl, rfl⟩, entryBlock_absent absent,
        List.append_nil]
  unfold owned
  rw [← List.append_assoc]
  apply List.Perm.append_right
  apply flatMap_perm_of_slot List.nodup_range (List.mem_range.mpr user)
  · intro i member different
    have bound := List.mem_range.mp member
    have small : (BitVec.ofNat 32 i).toNat < 768 := by rwa [toNat_ofNat_index (by omega)]
    apply tableBlocks_congr bound (directory _ small)
    intro other otherHas k kSmall
    have unequal : ¬ (table = other ∧ j = k) := by
      rintro ⟨rfl, _⟩
      apply different
      rw [← once _ small otherHas, toNat_ofNat_index (by omega)]
    rw [tables _ other small otherHas k kSmall, if_neg unequal]
  · rw [after.tableBlocks_eq, has.tableBlocks_eq, ← List.append_assoc]
    exact pages.append_right _

theorem pageBlocks_empty (empty : ∀ j : Word, j.toNat < 1024 → p.entry table j = 0) : p.pageBlocks table = [] := by
  apply List.flatMap_eq_nil_iff.mpr
  intro j member
  have bound := List.mem_range.mp member
  rw [empty _ (by rwa [toNat_ofNat_index bound])]
  rfl

/-- A table is linked into the directory with the pages it points to. -/
theorem owned_perm_of_table (user : index.toNat < 768) (absent : p.entry pageDir index &&& pagePresent = 0)
    (has : q.HasTable pageDir index table)
    (directory : ∀ i : Word, i.toNat < 768 → i ≠ index → q.entry pageDir i = p.entry pageDir i)
    (tables : ∀ (i other : Word), i.toNat < 768 → p.HasTable pageDir i other →
      ∀ j : Word, j.toNat < 1024 → q.entry other j = p.entry other j) :
    (q.owned pageDir).Perm (q.pageBlocks table ++ [table] ++ p.owned pageDir) := by
  have nothing : p.tableBlocks pageDir index.toNat = [] := by
    rw [tableBlocks, ofNat_toNat_index, entryBlock_absent absent, List.flatMap_nil]
  rw [owned, owned, ← List.append_assoc]
  apply List.Perm.append_right
  apply flatMap_perm_of_slot List.nodup_range (List.mem_range.mpr user)
  · intro i member different
    have bound := List.mem_range.mp member
    have small : (BitVec.ofNat 32 i).toNat < 768 := by rwa [toNat_ofNat_index (by omega)]
    have other : BitVec.ofNat 32 i ≠ index := by
      rintro rfl
      exact different (toNat_ofNat_index (by omega)).symm
    exact tableBlocks_congr bound (directory _ small other) fun table => tables _ table small
  · rw [has.tableBlocks_eq, nothing, List.append_nil]

/-- Against the state `b`, the blocks are the ones that have been taken since:
all of them were free in `b`, and the allocator counts and remembers them. -/
structure Holds (b p : Paging) (blocks : List Word) : Prop where
  steady : Steady b p
  distinct : blocks.Nodup
  fresh : ∀ block ∈ blocks, b.Block block ∧ b.inUse (block.toNat / 4096) = false
  inUse : ∀ frame < b.searched, p.inUse frame = true ↔
    b.inUse frame = true ∨ ∃ block ∈ blocks, block.toNat / 4096 = frame
  used : p.usedBlocks = b.usedBlocks + BitVec.ofNat 32 blocks.length
  ledger : ∃ calls, p.calls = calls ++ b.calls ∧ Ledger.Honest calls ∧ (Ledger.held calls).Perm blocks

variable {b : Paging} {block : Word} {blocks others : List Word}

theorem Holds.refl (b : Paging) : Holds b b [] := by
  refine ⟨.refl b, List.nodup_nil, ?_, ?_, ?_, [], rfl, trivial, List.Perm.nil⟩
  · intro block member
    cases member
  · intro frame _
    simp
  · exact (BitVec.add_zero _).symm

theorem Holds.perm (holds : Holds b p blocks) (same : blocks.Perm others) : Holds b p others := by
  obtain ⟨calls, shape, honest, held⟩ := holds.ledger
  refine ⟨holds.steady, same.nodup holds.distinct, ?_, ?_, ?_, calls, shape, honest, held.trans same⟩
  · intro block member
    exact holds.fresh block (same.symm.subset member)
  · intro frame bound
    simp only [holds.inUse frame bound, same.mem_iff]
  · rw [holds.used, same.length_eq]

theorem Holds.keep (holds : Holds b p blocks) (unseen : Unseen p q) : Holds b q blocks := by
  refine ⟨holds.steady.trans unseen.steady, holds.distinct, holds.fresh, ?_, unseen.used.trans holds.used, ?_⟩
  · intro frame bound
    rw [unseen.inUse frame (by rwa [holds.steady.searched])]
    exact holds.inUse frame bound
  · rw [unseen.calls]
    exact holds.ledger

theorem Holds.take (holds : Holds b p blocks) (steady : Steady p q) (member : p.Block block)
    (free : p.inUse (block.toNat / 4096) = false)
    (inUse : ∀ frame < p.searched, q.inUse frame = (decide (block.toNat / 4096 = frame) || p.inUse frame))
    (used : q.usedBlocks = p.usedBlocks + 1) (calls : q.calls = .taken block :: p.calls) :
    Holds b q (block :: blocks) := by
  obtain ⟨earlier, shape, honest, held⟩ := holds.ledger
  have known : b.Block block := holds.steady.block_iff.mp member
  have unmarked : ¬ p.inUse (block.toNat / 4096) = true := by simp [free]
  rw [holds.inUse _ known.bound, not_or] at unmarked
  refine ⟨holds.steady.trans steady, ?_, ?_, ?_, ?_, .taken block :: earlier, by rw [calls, shape]; rfl, honest, held.cons block⟩
  · refine List.nodup_cons.mpr ⟨?_, holds.distinct⟩
    intro present
    exact unmarked.2 ⟨block, present, rfl⟩
  · intro other present
    rcases List.mem_cons.mp present with same | old
    · subst same
      exact ⟨known, by simpa using unmarked.1⟩
    · exact holds.fresh other old
  · intro frame bound
    rw [inUse frame (by rwa [holds.steady.searched]), Bool.or_eq_true, decide_eq_true_eq, holds.inUse frame bound]
    simp only [List.mem_cons, exists_eq_or_imp]
    exact or_left_comm
  · rw [used, holds.used, List.length_cons, BitVec.ofNat_add]
    bv_omega

theorem Holds.allocated (holds : Holds b p blocks) (allocated : Allocated p block q) : Holds b q (block :: blocks) :=
  holds.take allocated.steady allocated.member allocated.free allocated.inUse allocated.used allocated.calls

/-- Giving back a block that is held. -/
theorem Holds.freed (holds : Holds b p (block :: blocks)) (freed : Freed p block q) : Holds b q blocks := by
  obtain ⟨earlier, shape, honest, held⟩ := holds.ledger
  obtain ⟨absent, distinct⟩ := List.nodup_cons.mp holds.distinct
  obtain ⟨known, unmarked⟩ := holds.fresh block List.mem_cons_self
  have present : block ∈ Ledger.held earlier := held.symm.subset List.mem_cons_self
  have rest : (Ledger.held (.returned block :: earlier)).Perm blocks := by
    have erased := held.erase block
    rwa [List.erase_cons_head] at erased
  refine ⟨holds.steady.trans freed.steady, distinct, ?_, ?_, ?_, .returned block :: earlier,
    by rw [freed.calls, shape]; rfl, ⟨present, honest⟩, rest⟩
  · intro other member
    exact holds.fresh other (List.mem_cons_of_mem _ member)
  · intro frame bound
    rw [freed.inUse frame (by rwa [holds.steady.searched]), Bool.and_eq_true, holds.inUse frame bound]
    simp only [Bool.not_eq_true', decide_eq_false_iff_not, List.mem_cons, exists_eq_or_imp]
    constructor
    · rintro ⟨different, old | same | later⟩
      · exact .inl old
      · exact absurd same different
      · exact .inr later
    · rintro (old | ⟨other, member, same⟩)
      · refine ⟨?_, .inl old⟩
        rintro rfl
        rw [unmarked] at old
        cases old
      · refine ⟨?_, .inr (.inr ⟨other, member, same⟩)⟩
        intro again
        have equal := known.page.eq_of_frame (holds.fresh other (List.mem_cons_of_mem _ member)).1.page (again.trans same.symm)
        exact absent (equal ▸ member)
  · rw [freed.used, holds.used, List.length_cons, BitVec.ofNat_add]
    bv_omega

end MexOS.Mm.Paging
