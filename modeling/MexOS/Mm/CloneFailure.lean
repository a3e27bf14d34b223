import MexOS.Mm.CloneCopy

/-! What a failed `vmm_clone_address_space` leaves behind. -/

namespace MexOS.Mm.Paging

open MexOS.Machine

/-- The bitmap, the counter of the allocator and the address space are as they
were. -/
structure Undisturbed (p : Paging) (src : Word) (q : Paging) : Prop where
  bitmap : SameBitmap p q
  used : q.usedBlocks = p.usedBlocks
  source : SameSpace p src q

variable {p : Paging} {src : Word}

/-- The counter tells of the pages that are left behind. -/
theorem Standing.leaked_used (standing : Standing p src) (failed : (p.cloneAddressSpace src).1 = 0)
    (unclean : ¬ p.FailsClean src) : (p.cloneAddressSpace src).2.usedBlocks ≠ p.usedBlocks := by
  obtain ⟨_, _, leaked, holds, few, clean⟩ := standing.clone_failed failed
  intro same
  have counted := holds.used
  rw [same] at counted
  have value := congrArg BitVec.toNat counted
  rw [BitVec.toNat_add, BitVec.toNat_ofNat] at value
  have bound := p.usedBlocks.isLt
  apply unclean
  rw [← clean]
  apply List.eq_nil_of_length_eq_zero
  omega

/-- A call that returns NULL leaves everything as it was exactly when the
missing block was wanted for the directory, for a table or for the first page
of a table. -/
theorem failed_clone_undisturbed (standing : Standing p src) (failed : (p.cloneAddressSpace src).1 = 0) :
    Undisturbed p src (p.cloneAddressSpace src).2 ↔ p.FailsClean src := by
  constructor
  · intro undisturbed
    by_contra unclean
    exact standing.leaked_used failed unclean undisturbed.used
  · intro stopped
    obtain ⟨kept, _, leaked, holds, _, clean⟩ := standing.clone_failed failed
    have nothing : leaked = [] := clean.mpr stopped
    subst nothing
    refine ⟨holds.sameBitmap, ?_, standing.sameSpace kept⟩
    rw [holds.used, List.length_nil]
    exact BitVec.add_zero _

/-- A directory at `0x1000` with a table at `0x3000` for the two pages at
`0x2000` and `0x4000`, and a bitmap in which frames 5, 6 and 7 are free. -/
def tightMemory : Memory := fun place =>
  if place = 0x1400 then 7
  else if place = 0x1401 then 0x30
  else if place = 0x3000 ∨ place = 0x3004 then 7
  else if place = 0x3001 then 0x20
  else if place = 0x3005 then 0x40
  else if place = 0x100000 then 0x1F
  else if 0x100000 < place.toNat ∧ place.toNat < 0x100004 then 0xFF
  else 0

def tightMachine : Paging := { smallMachine with mem := tightMemory, usedBlocks := 29 }

theorem tightMemory_low {place : Word} (below : place.toNat < 0x100000)
    (directory : place ≠ 0x1400 ∧ place ≠ 0x1401)
    (table : place ≠ 0x3000 ∧ place ≠ 0x3001 ∧ place ≠ 0x3004 ∧ place ≠ 0x3005) : tightMemory place = 0 := by
  have bitmap : place ≠ 0x100000 := by bv_omega
  have behind : ¬ (0x100000 < place.toNat ∧ place.toNat < 0x100004) := by omega
  obtain ⟨first, second, third, fourth⟩ := table
  simp only [tightMemory, directory.1, directory.2, first, second, third, fourth, bitmap, behind, or_self, if_false]

theorem tightMachine_directory {index : Word} (small : index.toNat < 1024) (other : index ≠ 256) :
    tightMachine.entry 0x1000 index = 0 := by
  have zero : loadWord tightMemory (0x1000 + 4 * index) = loadWord (fun _ => 0) (0x1000 + 4 * index) := by
    apply loadWord_congr
    intro lane laneSmall
    refine tightMemory_low ?_ ⟨?_, ?_⟩ ⟨?_, ?_, ?_, ?_⟩ <;> bv_omega
  have word : tightMachine.entry 0x1000 index = loadWord tightMemory (0x1000 + 4 * index) := rfl
  rw [word, zero]
  simp only [loadWord]
  decide

theorem tightMachine_table {index : Word} (small : index.toNat < 1024) (first : index ≠ 0) (second : index ≠ 1) :
    tightMachine.entry 0x3000 index = 0 := by
  have zero : loadWord tightMemory (0x3000 + 4 * index) = loadWord (fun _ => 0) (0x3000 + 4 * index) := by
    apply loadWord_congr
    intro lane laneSmall
    refine tightMemory_low ?_ ⟨?_, ?_⟩ ⟨?_, ?_, ?_, ?_⟩ <;> bv_omega
  have word : tightMachine.entry 0x3000 index = loadWord tightMemory (0x3000 + 4 * index) := rfl
  rw [word, zero]
  simp only [loadWord]
  decide

theorem tightMachine_pages : tightMachine.pageBlocks 0x3000 = [0x2000, 0x4000] := by
  have each (j : Nat) (small : j < 1024) : entryBlock (tightMachine.entry 0x3000 (BitVec.ofNat 32 j)) =
      if j = 0 then [0x2000] else if j = 1 then [0x4000] else [] := by
    by_cases first : j = 0
    · subst first
      decide
    · by_cases second : j = 1
      · subst second
        decide
      · rw [if_neg first, if_neg second, tightMachine_table]
        · decide
        · rwa [toNat_ofNat_index small]
        · bv_omega
        · bv_omega
  rw [pageBlocks, List.flatMap_congr fun j member => each j (List.mem_range.mp member)]
  decide +kernel

theorem tightMachine_present (i : Nat) (user : i < 768) :
    tightMachine.entry 0x1000 (BitVec.ofNat 32 i) = if i = 256 then 0x3007 else 0 := by
  by_cases here : i = 256
  · subst here
    decide
  · rw [if_neg here]
    exact tightMachine_directory (by rw [toNat_ofNat_index (by omega)]; omega) (by bv_omega)

theorem tightMachine_owned : tightMachine.owned 0x1000 = [0x2000, 0x4000, 0x3000, 0x1000] := by
  have each (i : Nat) (user : i < 768) : tightMachine.tableBlocks 0x1000 i = if i = 256 then [0x2000, 0x4000, 0x3000] else [] := by
    rw [tableBlocks, tightMachine_present i user]
    by_cases here : i = 256
    · rw [if_pos here, if_pos here]
      have points : entryBlock 0x3007 = [0x3000] := by decide
      rw [points, List.flatMap_singleton, tightMachine_pages]
      rfl
    · rw [if_neg here, if_neg here]
      rfl
  rw [owned, List.flatMap_congr fun i member => each i (List.mem_range.mp member)]
  decide +kernel

theorem tightMachine_member {block : Word} (member : block ∈ tightMachine.owned 0x1000) :
    block = 0x2000 ∨ block = 0x4000 ∨ block = 0x3000 ∨ block = 0x1000 := by
  rw [tightMachine_owned] at member
  simpa using member

theorem tightMachine_tablePages : tightMachine.tablePages 0x1000 (List.range 768) = [2] := by
  have only : (List.range 768).filter (fun i => tightMachine.entry 0x1000 (BitVec.ofNat 32 i) &&& pagePresent != 0) =
      (List.range 768).filter fun i => i == 256 := by
    apply List.filter_congr
    intro i member
    rw [tightMachine_present i (List.mem_range.mp member)]
    by_cases here : i = 256
    · rw [if_pos here, here]
      decide
    · rw [if_neg here, beq_eq_false_iff_ne.mpr here]
      decide
  have one : (List.range 768).filter (fun i => i == 256) = [256] := by decide +kernel
  have points : pageOf (tightMachine.entry 0x1000 (BitVec.ofNat 32 256)) = 0x3000 := by
    rw [tightMachine_present 256 (by decide), if_pos rfl]
    decide
  rw [tablePages, only, one, List.map_singleton, points, tightMachine_pages]
  rfl

theorem tightMachine_standing : Standing tightMachine 0x1000 := by
  have clear {page : Word} (below : page.toNat + 4096 ≤ 0x100000) : tightMachine.Clear page := smallMachine_clear below
  refine ⟨⟨⟨by decide, ?_, fun impossible => absurd rfl impossible⟩, fun impossible => absurd rfl impossible⟩, ?_, ?_, ?_⟩
  · intro block known _
    have bound := known.bound
    have searched : tightMachine.searched = 32 := by decide
    exact clear (by have aligned := known.page; unfold Page at aligned; omega)
  · rw [tightMachine_owned]
    decide
  · intro block member
    rcases tightMachine_member member with rfl | rfl | rfl | rfl
    all_goals exact ⟨⟨by decide, by decide⟩, by decide, clear (by decide)⟩
  · intro block member
    rcases tightMachine_member member with rfl | rfl | rfl | rfl
    all_goals decide

/-- The third of three blocks is for the first page of the table, and there is
none for the second page. -/
theorem tightMachine_unclean : ¬ tightMachine.FailsClean 0x1000 := by
  have supply : tightMachine.supply = 3 := by decide
  rintro (none_left | stops)
  · rw [supply] at none_left
    cases none_left
  · rw [supply, tightMachine_tablePages] at stops
    cases stops

theorem tightMachine_failed : (tightMachine.cloneAddressSpace 0x1000).1 = 0 := by
  by_contra returned
  exact tightMachine_unclean (tightMachine_standing.clone_returned returned).2.2.2

theorem failed_clone_undisturbed_tight : (tightMachine.cloneAddressSpace 0x1000).1 = 0 ∧
    ¬ Undisturbed tightMachine 0x1000 (tightMachine.cloneAddressSpace 0x1000).2 := by
  refine ⟨tightMachine_failed, ?_⟩
  rw [failed_clone_undisturbed tightMachine_standing tightMachine_failed]
  exact tightMachine_unclean

/-- The page that was copied into the table stays in use for good. -/
theorem failed_clone_disturbs : ¬ ∀ p src, Standing p src → (p.cloneAddressSpace src).1 = 0 →
    Undisturbed p src (p.cloneAddressSpace src).2 := by
  intro holds
  have undisturbed := holds tightMachine 0x1000 tightMachine_standing tightMachine_failed
  exact tightMachine_standing.leaked_used tightMachine_failed tightMachine_unclean undisturbed.used

end MexOS.Mm.Paging
