import MexOS.Mm.WindowCalls

/-! Destroying and cloning an address space while the kernel directory is
active. -/

namespace MexOS.Mm.Paging

open MexOS.Machine

variable {p q : Paging} {kernelEnd : Word} {live : List Word}
  {page index block space table address pageDir value : Word} {frame : Nat}

section Destroy

theorem foldl_keeps {α : Type} {changed : Word → Prop} {step : Paging → α → Paging} {turns : List α}
    (each : ∀ turn ∈ turns, ∀ q, Active kernelEnd live q → Kept kernelEnd changed p q →
      Active kernelEnd live (step q turn) ∧ Kept kernelEnd changed p (step q turn))
    (active : Active kernelEnd live q) (kept : Kept kernelEnd changed p q) :
    Active kernelEnd live (turns.foldl step q) ∧ Kept kernelEnd changed p (turns.foldl step q) := by
  induction turns generalizing q with
  | nil => exact ⟨active, kept⟩
  | cons first rest ih =>
    obtain ⟨next, nextKept⟩ := each first List.mem_cons_self q active kept
    rw [List.foldl_cons]
    exact ih (fun turn member => each turn (List.mem_cons_of_mem _ member)) next nextKept

/-- The pages in the user half of the directory may be given back. -/
def Releasable (kernelEnd : Word) (live : List Word) (p : Paging) (pageDir : Word) : Prop :=
  ∀ i table, i.toNat < 768 → p.HasTable pageDir i table → ∀ j : Word, j.toNat < 1024 →
    p.entry table j &&& pagePresent ≠ 0 → Disposable kernelEnd live p (pageOf (p.entry table j))

/-- Reading a page in the window and giving back what the entry points to. -/
theorem Active.release (active : Active kernelEnd live p) (now : Active kernelEnd live q)
    (kept : Kept kernelEnd (fun _ => False) p q) (gone : Disposable kernelEnd live p block) :
    Active kernelEnd live (q.freeBlock block) ∧ Kept kernelEnd (fun _ => False) p (q.freeBlock block) := by
  obtain ⟨freed, after⟩ := now.freeBlock gone.behind (kept.vacant active.toIntact (fun _ _ none => none) gone.vacant)
  exact ⟨freed, kept.trans after⟩

theorem Active.destroyEntry (active : Active kernelEnd live p) (windowed : Windowed kernelEnd table) {j : Nat} (small : j < 1024)
    (pages : p.entry table (BitVec.ofNat 32 j) &&& pagePresent ≠ 0 →
      Disposable kernelEnd live p (pageOf (p.entry table (BitVec.ofNat 32 j))))
    (now : Active kernelEnd live q) (kept : Kept kernelEnd (fun _ => False) p q) :
    Active kernelEnd live (destroyEntry table q j) ∧ Kept kernelEnd (fun _ => False) p (destroyEntry table q j) := by
  have index : (BitVec.ofNat 32 j).toNat < 1024 := by rwa [toNat_ofNat_index small]
  have word : q.entry table (BitVec.ofNat 32 j) = p.entry table (BitVec.ofNat 32 j) :=
    kept.entry table _ windowed.toBehind id index
  have looked := now.touch (windowed.place index)
  have lookedKept := kept.trans (kept_touch q (table + 4 * BitVec.ofNat 32 j))
  simp only [Paging.destroyEntry, read_entry, word]
  split
  · next present => exact active.release looked lookedKept (pages present)
  · exact ⟨looked, lookedKept⟩

theorem Active.destroyTable (active : Active kernelEnd live p) (windowed : Windowed kernelEnd pageDir) {i : Nat} (user : i < 768)
    (tables : ∀ table, p.HasTable pageDir (BitVec.ofNat 32 i) table →
      Windowed kernelEnd table ∧ p.Vacant live table)
    (releasable : Releasable kernelEnd live p pageDir)
    (now : Active kernelEnd live q) (kept : Kept kernelEnd (fun _ => False) p q) :
    Active kernelEnd live (destroyTable pageDir q i) ∧ Kept kernelEnd (fun _ => False) p (destroyTable pageDir q i) := by
  have number : (BitVec.ofNat 32 i).toNat = i := toNat_ofNat_index (by omega)
  have small : (BitVec.ofNat 32 i).toNat < 1024 := by omega
  have word : q.entry pageDir (BitVec.ofNat 32 i) = p.entry pageDir (BitVec.ofNat 32 i) :=
    kept.entry pageDir _ windowed.toBehind id small
  have looked := now.touch (windowed.place small)
  have lookedKept := kept.trans (kept_touch q (pageDir + 4 * BitVec.ofNat 32 i))
  simp only [Paging.destroyTable, read_entry, word, physToVirt_eq]
  split
  · next present =>
    have has : p.HasTable pageDir (BitVec.ofNat 32 i) (pageOf (p.entry pageDir (BitVec.ofNat 32 i))) := ⟨small, present, rfl⟩
    obtain ⟨tableWindowed, vacant⟩ := tables _ has
    obtain ⟨pages, pagesKept⟩ := foldl_keeps (fun j member _ now kept =>
      active.destroyEntry tableWindowed (List.mem_range.mp member)
        (releasable _ _ (by omega) has _ (by rw [toNat_ofNat_index (List.mem_range.mp member)]; exact List.mem_range.mp member))
        now kept) looked lookedKept
    exact active.release pages pagesKept ⟨tableWindowed.toBehind, vacant⟩
  · exact ⟨looked, lookedKept⟩

theorem Vacant.mono {fewer : List Word} (vacant : p.Vacant live page) (subset : fewer ⊆ live) : p.Vacant fewer page := by
  rintro ⟨space, known, here⟩
  exact vacant ⟨space, known.imp_right (@subset _), here⟩

theorem Active.mono {fewer : List Word} (active : Active kernelEnd live p) (subset : fewer ⊆ live) : Active kernelEnd fewer p :=
  ⟨active.toIntact.mono subset, active.cr3⟩

/-- The directories that are left. -/
def without (live : List Word) (pageDir : Word) : List Word := live.filter (· ≠ pageDir)

theorem without_subset (live : List Word) (pageDir : Word) : without live pageDir ⊆ live := List.filter_subset_self _

theorem Active.destroyAddressSpace (active : Active kernelEnd live p) (member : pageDir ∈ live)
    (releasable : Releasable kernelEnd live p pageDir) :
    Active kernelEnd (without live pageDir) (p.destroyAddressSpace pageDir) := by
  have windowed := active.directory_windowed (.inr member)
  have notKernel : pageDir ≠ p.kernelDirectory := by
    rintro rfl
    exact active.kernel member
  have guard : ¬ (pageDir = 0 ∨ pageDir = p.kernelDirectory) := by
    rintro (null | kernel)
    · exact windowed.ne_zero active.kernelEnd_pos null
    · exact notKernel kernel
  have fewer := active.mono (without_subset live pageDir)
  have known {space : Word} (left : p.Known (without live pageDir) space) : p.Known live space ∧ space ≠ pageDir := by
    rcases left with rfl | inside
    · exact ⟨.inl rfl, Ne.symm notKernel⟩
    · obtain ⟨old, different⟩ := List.mem_filter.mp inside
      exact ⟨.inr old, by simpa using different⟩
  have directory : p.Vacant (without live pageDir) pageDir := by
    rintro ⟨space, left, here | ⟨index, has⟩⟩
    · exact (known left).2 here.symm
    · exact active.apart _ _ _ (known left).1 (.inr member) has
  have tables (i : Nat) (user : i < 768) (table : Word) (has : p.HasTable pageDir (BitVec.ofNat 32 i) table) :
      Windowed kernelEnd table ∧ p.Vacant (without live pageDir) table := by
    refine ⟨active.table_windowed (.inr member) has, ?_⟩
    rintro ⟨space, left, here | ⟨index, otherHas⟩⟩
    · subst here
      exact active.apart _ _ _ (.inr member) (known left).1 has
    · -- the table serves this directory alone
      have same := active.owners _ _ _ _ _ (known left).1 (.inr member) otherHas has
      have number : (BitVec.ofNat 32 i).toNat = i := toNat_ofNat_index (by omega)
      rw [p.owner_user notKernel (by omega)] at same
      exact (known left).2 (owner_eq_some same)
  have pages : Releasable kernelEnd (without live pageDir) p pageDir := by
    intro i table user has j small present
    obtain ⟨behind, vacant⟩ := releasable i table user has j small present
    exact ⟨behind, vacant.mono (without_subset live pageDir)⟩
  obtain ⟨last, kept⟩ := foldl_keeps (fun i inside _ now kept =>
    fewer.destroyTable windowed (List.mem_range.mp inside) (tables i (List.mem_range.mp inside)) pages now kept)
    fewer (Kept.refl p)
  rw [Paging.destroyAddressSpace, if_neg guard, physToVirt_eq]
  exact (fewer.release last kept ⟨windowed.toBehind, directory⟩).1

end Destroy

section Clone

/-! `vmm_clone_address_space`. The pages and the table of one directory entry
are taken before the table is linked. -/

/-- A page that was taken and that no directory refers to as a table. -/
structure Loose (kernelEnd : Word) (live : List Word) (p : Paging) (page : Word) : Prop extends Disposable kernelEnd live p page where
  inUse : p.inUse (page.toNat / 4096) = true

theorem Grown.loose {except : Word → Prop} (grown : Grown kernelEnd except p q) (intact : Intact kernelEnd live p)
    (same : ∀ space, p.Known live space → ¬ except space) (loose : Loose kernelEnd live p page) : Loose kernelEnd live q page where
  behind := loose.behind
  vacant := fun occupied => loose.vacant ((grown.occupied intact same).mp occupied)
  inUse := grown.bits _ loose.behind.last loose.inUse

/-- Entry `index` of the table is empty or points to a page of its own. -/
def Fine (kernelEnd : Word) (live : List Word) (p : Paging) (table index : Word) : Prop :=
  p.entry table index &&& pagePresent ≠ 0 →
    Loose kernelEnd live p (pageOf (p.entry table index)) ∧ pageOf (p.entry table index) ≠ table

/-- Copying into the loose table `table` took `cost` frames. -/
structure Copied (kernelEnd : Word) (live : List Word) (table : Word) (p q : Paging) (cost : Nat) : Prop where
  active : Active kernelEnd live q
  grown : Grown kernelEnd (· = table) p q
  loose : Loose kernelEnd live q table
  spare : q.spare (windowFrames kernelEnd) + cost = p.spare (windowFrames kernelEnd)
  fine : ∀ k : Word, k.toNat < 1024 → Fine kernelEnd live p table k → Fine kernelEnd live q table k

variable {r : Paging} {first second cost : Nat}

theorem Copied.trans (one : Copied kernelEnd live table p q first) (two : Copied kernelEnd live table q r second) :
    Copied kernelEnd live table p r (first + second) where
  active := two.active
  grown := one.grown.trans two.grown
  loose := two.loose
  spare := by
    have before := one.spare
    have after := two.spare
    omega
  fine := fun k small before => two.fine k small (one.fine k small before)

theorem Loose.unknown (loose : Loose kernelEnd live p page) (space : Word) (known : p.Known live space) : space ≠ page := by
  rintro rfl
  exact loose.vacant ⟨_, known, .inl rfl⟩

/-- A step that leaves the words of the table alone. -/
theorem Active.copied (active : Active kernelEnd live p) (loose : Loose kernelEnd live p table) (now : Active kernelEnd live q)
    (grown : Grown kernelEnd (fun _ => False) p q)
    (spare : q.spare (windowFrames kernelEnd) + cost = p.spare (windowFrames kernelEnd)) :
    Copied kernelEnd live table p q cost where
  active := now
  grown := ⟨grown.statics, grown.bits, fun page index behind used _ small => grown.entry page index behind used id small⟩
  loose := grown.loose active.toIntact (fun _ _ none => none) loose
  spare := spare
  fine := by
    intro k small before
    have word := grown.entry table k loose.behind loose.inUse id small
    rw [Fine, word]
    intro present
    obtain ⟨pageLoose, different⟩ := before present
    exact ⟨grown.loose active.toIntact (fun _ _ none => none) pageLoose, different⟩

theorem Active.copied_touch (active : Active kernelEnd live p) (loose : Loose kernelEnd live p table)
    (inside : address.toNat < windowSize) : Copied kernelEnd live table p (p.touch address) 0 := by
  have kept : Kept kernelEnd (fun _ => False) p (p.touch address) := kept_touch p address
  exact active.copied loose (active.touch inside) (kept.grown (fun _ _ used => used) fun _ none => none.elim) rfl

/-- Storing an entry that is empty or points to a page of its own. -/
theorem Active.copied_write (active : Active kernelEnd live p) (loose : Loose kernelEnd live p table)
    (windowed : Windowed kernelEnd table) (small : index.toNat < 1024)
    (fine : value &&& pagePresent ≠ 0 → Loose kernelEnd live p (pageOf value) ∧ pageOf value ≠ table) :
    Copied kernelEnd live table p (p.write (table + 4 * index) value) 0 ∧
      Fine kernelEnd live (p.write (table + 4 * index) value) table index := by
  have bits (frame : Nat) (bound : frame < reach kernelEnd) :
      (p.write (table + 4 * index) value).inUse frame = p.inUse frame :=
    bits_write windowed.toBehind active.bitmapAddr small value bound
  have kept : Kept kernelEnd (· = table) p (p.write (table + 4 * index) value) := kept_write windowed.toBehind small value
  have grown : Grown kernelEnd (· = table) p (p.write (table + 4 * index) value) :=
    kept.grown (fun frame bound used => by rwa [bits frame bound]) fun _ here => .inr here
  have keeps {page : Word} (before : Loose kernelEnd live p page) : Loose kernelEnd live (p.write (table + 4 * index) value) page :=
    grown.loose active.toIntact loose.unknown before
  have word (k : Word) (kSmall : k.toNat < 1024) : (p.write (table + 4 * index) value).entry table k =
      if table = table ∧ index = k then value else p.entry table k :=
    entry_write windowed.aligned windowed.aligned small kSmall
  have here : Fine kernelEnd live (p.write (table + 4 * index) value) table index := by
    rw [Fine, word index small, if_pos ⟨rfl, rfl⟩]
    intro present
    exact ⟨keeps (fine present).1, (fine present).2⟩
  refine ⟨⟨active.write windowed loose.vacant small value, grown, keeps loose, ?_, ?_⟩, here⟩
  · have near := windowFrames_le_reach kernelEnd
    exact spare_congr fun frame bound => bits frame (by omega)
  · intro k kSmall before
    by_cases same : index = k
    · subst same
      exact here
    · rw [Fine, word k kSmall, if_neg fun both => same both.2]
      intro present
      exact ⟨keeps (before present).1, (before present).2⟩

/-- A page is taken and filled from another one. -/
theorem Active.copied_page {source : Word} (active : Active kernelEnd live p) (loose : Loose kernelEnd live p table)
    (granted : Granted kernelEnd live p block q) (some_free : 0 < p.spare (windowFrames kernelEnd))
    (inside : address.toNat < windowSize) (sourceInside : source.toNat < windowSize) :
    Copied kernelEnd live table p ((q.touch address).copyPage block source) 1 ∧
      Loose kernelEnd live ((q.touch address).copyPage block source) block ∧ block ≠ table := by
  have windowed := granted.windowed some_free
  have less := granted.spare active.toIntact some_free
  have looked := granted.active.touch inside
  have lookedKept : Kept kernelEnd (fun _ => False) q (q.touch address) := kept_touch q address
  have vacant : (q.touch address).Vacant live block :=
    lookedKept.vacant granted.active.toIntact (fun _ _ none => none) (granted.vacant_after active.toIntact)
  have kept : Kept kernelEnd (· = block) (q.touch address) ((q.touch address).copyPage block source) :=
    kept_copyPage windowed.toBehind source
  have bits (frame : Nat) (bound : frame < reach kernelEnd) :
      ((q.touch address).copyPage block source).inUse frame = q.inUse frame :=
    inUse_copyPage (p := q.touch address) (windowed.outside looked.bitmapAddr bound)
  have unknown (space : Word) (known : (q.touch address).Known live space) : space ≠ block := by
    rintro rfl
    exact vacant ⟨_, known, .inl rfl⟩
  have whole : Kept kernelEnd (· = block) p ((q.touch address).copyPage block source) :=
    ((granted.kept.trans lookedKept).weaken fun _ none => none.elim).trans kept
  have grown : Grown kernelEnd (fun _ => False) p ((q.touch address).copyPage block source) := by
    apply whole.grown
    · intro frame bound used
      rw [bits frame bound, granted.bits active.toIntact bound, used, Bool.or_true]
    · rintro _ rfl
      exact .inl granted.allocated.free
  refine ⟨active.copied loose (looked.copyPage windowed vacant sourceInside) grown ?_, ⟨⟨windowed.toBehind, ?_⟩, ?_⟩, ?_⟩
  · have near := windowFrames_le_reach kernelEnd
    rw [spare_congr fun frame bound => bits frame (by omega), less]
  · exact kept.vacant looked.toIntact unknown vacant
  · rw [bits _ windowed.last]
    exact granted.inUse
  · rintro rfl
    have free := granted.allocated.free
    rw [loose.inUse] at free
    cases free

/-- The words of the source table are the ones it had. -/
theorem Copied.source (copied : Copied kernelEnd live table p q cost) {source : Word} (windowed : Windowed kernelEnd source)
    (used : p.inUse (source.toNat / 4096) = true) (apart : source ≠ table) {j : Nat} (small : j < 1024) :
    q.entry source (BitVec.ofNat 32 j) = p.entry source (BitVec.ofNat 32 j) :=
  copied.grown.entry source _ windowed.toBehind used apart (by rwa [toNat_ofNat_index small])

/-- The rest of a turn of the inner loop once the page was allocated. -/
def fillEntry (source target block : Word) (p : Paging) (j : Nat) : Paging :=
  let place := source + 4 * BitVec.ofNat 32 j
  let found := p.read place
  let copied := found.2.copyPage block (pageOf found.1)
  let flags := copied.read place
  flags.2.write (target + 4 * BitVec.ofNat 32 j) (block ||| (flags.1 &&& 0xFFF))

section Turns

variable {source target : Word} {j : Nat} {rest : List Nat}

theorem cloneEntries_absent (absent : p.entry source (BitVec.ofNat 32 j) &&& pagePresent = 0) :
    cloneEntries source target (j :: rest) p =
      cloneEntries source target rest ((p.touch (source + 4 * BitVec.ofNat 32 j)).write (target + 4 * BitVec.ofNat 32 j) 0) :=
  if_neg fun present => present absent

theorem cloneEntries_failed (present : p.entry source (BitVec.ofNat 32 j) &&& pagePresent ≠ 0)
    (failed : (p.touch (source + 4 * BitVec.ofNat 32 j)).allocBlock.1 = 0) :
    cloneEntries source target (j :: rest) p = (false, (p.touch (source + 4 * BitVec.ofNat 32 j)).allocBlock.2) := by
  have taken : cloneEntries source target (j :: rest) p = _ := if_pos present
  rw [taken]
  exact if_pos failed

theorem cloneEntries_filled (present : p.entry source (BitVec.ofNat 32 j) &&& pagePresent ≠ 0)
    (granted : (p.touch (source + 4 * BitVec.ofNat 32 j)).allocBlock.1 ≠ 0) :
    cloneEntries source target (j :: rest) p = cloneEntries source target rest
      (fillEntry source target (p.touch (source + 4 * BitVec.ofNat 32 j)).allocBlock.1
        (p.touch (source + 4 * BitVec.ofNat 32 j)).allocBlock.2 j) := by
  have taken : cloneEntries source target (j :: rest) p = _ := if_pos present
  rw [taken]
  simp only [physToVirt_eq]
  exact if_neg granted

end Turns

/-- The turn of the inner loop at a present entry. -/
theorem Active.fillEntry {source : Word} (active : Active kernelEnd live p) (loose : Loose kernelEnd live p table)
    (windowed : Windowed kernelEnd table) (sourceWindowed : Windowed kernelEnd source) {j : Nat} (small : j < 1024)
    (inside : (pageOf (p.entry source (BitVec.ofNat 32 j))).toNat < windowSize)
    (some_free : 0 < p.spare (windowFrames kernelEnd))
    (granted : Granted kernelEnd live (p.touch (source + 4 * BitVec.ofNat 32 j)) block q) :
    Copied kernelEnd live table p (Paging.fillEntry source table block q j) 1 ∧
      Fine kernelEnd live (Paging.fillEntry source table block q j) table (BitVec.ofNat 32 j) := by
  have index : (BitVec.ofNat 32 j).toNat < 1024 := by rwa [toNat_ofNat_index small]
  have place := sourceWindowed.place index
  have looked := active.copied_touch loose place
  have same : q.entry source (BitVec.ofNat 32 j) = p.entry source (BitVec.ofNat 32 j) :=
    granted.kept.entry source _ sourceWindowed.toBehind id index
  rw [← same] at inside
  obtain ⟨page, pageLoose, different⟩ := looked.active.copied_page looked.loose granted some_free place inside
  have shape : Paging.fillEntry source table block q j =
      (((q.touch (source + 4 * BitVec.ofNat 32 j)).copyPage block (pageOf (q.entry source (BitVec.ofNat 32 j)))).touch
        (source + 4 * BitVec.ofNat 32 j)).write (table + 4 * BitVec.ofNat 32 j)
        (block ||| (((q.touch (source + 4 * BitVec.ofNat 32 j)).copyPage block
          (pageOf (q.entry source (BitVec.ofNat 32 j)))).entry source (BitVec.ofNat 32 j) &&& 0xFFF)) := rfl
  rw [shape]
  generalize (q.touch (source + 4 * BitVec.ofNat 32 j)).copyPage block (pageOf (q.entry source (BitVec.ofNat 32 j))) = m at *
  have again := page.active.copied_touch page.loose place
  have kept : Kept kernelEnd (fun _ => False) m (m.touch (source + 4 * BitVec.ofNat 32 j)) := kept_touch m _
  have blockLoose := (kept.grown (fun _ _ used => used) fun _ none => none.elim).loose page.active.toIntact
    (fun _ _ none => none) pageLoose
  have points : pageOf (block ||| (m.entry source (BitVec.ofNat 32 j) &&& 0xFFF)) = block :=
    pageOf_or pageLoose.behind.aligned (offset_lt _)
  obtain ⟨stored, fine⟩ := again.active.copied_write again.loose windowed index fun _ =>
    ⟨points.symm ▸ blockLoose, points.symm ▸ different⟩
  exact ⟨looked.trans (page.trans (again.trans stored)), fine⟩

/-- The frames that copying the entries takes. -/
def entriesCost (p : Paging) (source : Word) (turns : List Nat) : Nat :=
  (turns.flatMap fun j => entryBlock (p.entry source (BitVec.ofNat 32 j))).length

theorem Active.cloneEntries {source : Word} {turns : List Nat} (active : Active kernelEnd live p)
    (loose : Loose kernelEnd live p table) (windowed : Windowed kernelEnd table) (sourceWindowed : Windowed kernelEnd source)
    (used : p.inUse (source.toNat / 4096) = true) (apart : source ≠ table) (small : ∀ j ∈ turns, j < 1024)
    (inside : ∀ j ∈ turns, p.entry source (BitVec.ofNat 32 j) &&& pagePresent ≠ 0 →
      (pageOf (p.entry source (BitVec.ofNat 32 j))).toNat < windowSize)
    (enough : p.entriesCost source turns ≤ p.spare (windowFrames kernelEnd)) :
    ∃ cost, Copied kernelEnd live table p (Paging.cloneEntries source table turns p).2 cost ∧
      ((Paging.cloneEntries source table turns p).1 = true → cost = p.entriesCost source turns ∧
        ∀ j ∈ turns, Fine kernelEnd live (Paging.cloneEntries source table turns p).2 table (BitVec.ofNat 32 j)) := by
  induction turns generalizing p with
  | nil =>
    refine ⟨0, ⟨active, .refl p, loose, rfl, fun _ _ fine => fine⟩, fun _ => ⟨rfl, ?_⟩⟩
    intro j member
    cases member
  | cons j rest ih =>
    have jSmall := small j List.mem_cons_self
    have index : (BitVec.ofNat 32 j).toNat < 1024 := by rwa [toNat_ofNat_index jSmall]
    have place := sourceWindowed.place index
    have looked := active.copied_touch loose place
    -- the rest of the loop runs from a state in which entry `j` of the table is fine
    have continue_ (next : Paging) (share : List Word) (turn : Copied kernelEnd live table p next share.length)
        (fine : Fine kernelEnd live next table (BitVec.ofNat 32 j))
        (here : entryBlock (p.entry source (BitVec.ofNat 32 j)) = share) :
        ∃ cost, Copied kernelEnd live table p (Paging.cloneEntries source table rest next).2 cost ∧
          ((Paging.cloneEntries source table rest next).1 = true → cost = p.entriesCost source (j :: rest) ∧
            ∀ k ∈ j :: rest, Fine kernelEnd live (Paging.cloneEntries source table rest next).2 table (BitVec.ofNat 32 k)) := by
      have words {k : Nat} (member : k ∈ rest) : next.entry source (BitVec.ofNat 32 k) = p.entry source (BitVec.ofNat 32 k) :=
        turn.source sourceWindowed used apart (small k (List.mem_cons_of_mem _ member))
      have total : p.entriesCost source (j :: rest) = share.length + next.entriesCost source rest := by
        have later : next.entriesCost source rest = p.entriesCost source rest := by
          unfold entriesCost
          congr 1
          apply List.flatMap_congr
          intro k member
          rw [words member]
        rw [later, entriesCost, List.flatMap_cons, List.length_append, here, entriesCost]
      have spent := turn.spare
      obtain ⟨cost, copied, done⟩ := ih turn.active turn.loose (turn.grown.bits _ sourceWindowed.last used)
        (fun k member => small k (List.mem_cons_of_mem _ member))
        (fun k member present => by
          rw [words member] at present ⊢
          exact inside k (List.mem_cons_of_mem _ member) present)
        (by omega)
      refine ⟨share.length + cost, turn.trans copied, ?_⟩
      intro finished
      obtain ⟨same, all⟩ := done finished
      refine ⟨by omega, ?_⟩
      intro k member
      rcases List.mem_cons.mp member with rfl | later
      · exact copied.fine _ index fine
      · exact all k later
    by_cases present : p.entry source (BitVec.ofNat 32 j) &&& pagePresent ≠ 0
    · have cost : 0 < p.spare (windowFrames kernelEnd) := by
        rw [entriesCost, List.flatMap_cons, List.length_append, entryBlock_present present, List.length_singleton] at enough
        omega
      have far := p.spare_mono (windowFrames_le_reach kernelEnd)
      have some_free : 0 < (p.touch (source + 4 * BitVec.ofNat 32 j)).spare (reach kernelEnd) := lt_of_lt_of_le cost far
      rcases looked.active.allocBlock_cases some_free with nothing | granted
      · rw [cloneEntries_failed present (by rw [nothing]), nothing]
        exact ⟨0, looked, nofun⟩
      · rw [cloneEntries_filled present (granted.behind.ne_zero active.kernelEnd_pos)]
        obtain ⟨turn, fine⟩ := active.fillEntry loose windowed sourceWindowed jSmall (inside j List.mem_cons_self present)
          cost granted
        exact continue_ _ [_] turn fine (entryBlock_present present)
    · have absent : p.entry source (BitVec.ofNat 32 j) &&& pagePresent = 0 := not_not.mp present
      rw [cloneEntries_absent absent]
      obtain ⟨stored, fine⟩ := looked.active.copied_write looked.loose windowed index
        fun impossible => absurd (by decide : (0 : Word) &&& pagePresent = 0) impossible
      exact continue_ _ [] (looked.trans stored) fine (entryBlock_absent absent)

/-- The frames that copying the tables takes. -/
def tablesCost (p : Paging) (src : Word) (turns : List Nat) : Nat := (turns.flatMap (p.tableBlocks src)).length

theorem tablesCost_congr {src : Word} {turns : List Nat} (small : ∀ i ∈ turns, i < 768)
    (directory : ∀ i : Word, i.toNat < 1024 → q.entry src i = p.entry src i)
    (tables : ∀ i table, p.HasTable src i table → ∀ j : Word, j.toNat < 1024 → q.entry table j = p.entry table j) :
    q.tablesCost src turns = p.tablesCost src turns := by
  have blocks : turns.flatMap (q.tableBlocks src) = turns.flatMap (p.tableBlocks src) := by
    apply List.flatMap_congr
    intro i member
    have user := small i member
    have index : (BitVec.ofNat 32 i).toNat < 1024 := by
      rw [toNat_ofNat_index (by omega)]
      omega
    exact tableBlocks_congr user (directory _ index) fun table => tables _ table
  rw [tablesCost, tablesCost, blocks]

/-- The loop over the tables: the pages that the new directory has so far are
its own, and the pages still to copy lie in the window. -/
structure Cloning (kernelEnd : Word) (live : List Word) (src dst : Word) (turns : List Nat) (p : Paging) : Prop where
  active : Active kernelEnd live p
  known : p.Known live src
  target : dst ∈ live
  apart : src ≠ dst
  user : ∀ i ∈ turns, i < 768
  pages : ∀ i table, i.toNat < 768 → p.HasTable dst i table → ∀ j : Word, j.toNat < 1024 →
    p.entry table j &&& pagePresent ≠ 0 → Loose kernelEnd live p (pageOf (p.entry table j))
  inside : ∀ i ∈ turns, ∀ table, p.HasTable src (BitVec.ofNat 32 i) table → ∀ j : Word, j.toNat < 1024 →
    p.entry table j &&& pagePresent ≠ 0 → (pageOf (p.entry table j)).toNat < windowSize

variable {src dst : Word} {turns rest : List Nat} {except : Word → Prop}

theorem Cloning.tail {i : Nat} (cloning : Cloning kernelEnd live src dst (i :: rest) p) : Cloning kernelEnd live src dst rest p :=
  { cloning with
    user := fun i member => cloning.user i (List.mem_cons_of_mem _ member)
    inside := fun i member => cloning.inside i (List.mem_cons_of_mem _ member) }

/-- A step that changes vacant pages only. -/
theorem Cloning.grow (cloning : Cloning kernelEnd live src dst turns p) (now : Active kernelEnd live q)
    (grown : Grown kernelEnd except p q) (vacant : ∀ page, except page → p.Vacant live page) :
    Cloning kernelEnd live src dst turns q ∧ q.tablesCost src turns = p.tablesCost src turns := by
  have intact := cloning.active.toIntact
  have unknown (space : Word) (known : p.Known live space) : ¬ except space :=
    fun here => vacant space here ⟨space, known, .inl rfl⟩
  have same := grown.directories intact unknown
  have words {page : Word} (occupied : p.Occupied (p.Known live) page) (j : Word) (small : j.toNat < 1024) :
      q.entry page j = p.entry page j := by
    obtain ⟨windowed, used⟩ := intact.windowed page occupied
    exact grown.entry page j windowed.toBehind used (fun here => vacant page here occupied) small
  refine ⟨⟨now, grown.statics.known.mpr cloning.known, cloning.target, cloning.apart, cloning.user, ?_, ?_⟩, ?_⟩
  · intro i table user has j small present
    have before := (same.hasTable (.inr cloning.target)).mp has
    rw [words ⟨dst, .inr cloning.target, .inr ⟨i, before⟩⟩ j small] at present ⊢
    exact grown.loose intact unknown (cloning.pages i table user before j small present)
  · intro i member table has j small present
    have before := (same.hasTable cloning.known).mp has
    rw [words ⟨src, cloning.known, .inr ⟨_, before⟩⟩ j small] at present ⊢
    exact cloning.inside i member table before j small present
  · apply tablesCost_congr cloning.user
    · exact fun i small => words ⟨src, cloning.known, .inl rfl⟩ i small
    · exact fun i table has => words ⟨src, cloning.known, .inr ⟨i, has⟩⟩

theorem Cloning.releasable (cloning : Cloning kernelEnd live src dst turns p) : Releasable kernelEnd live p dst :=
  fun i table user has j small present => (cloning.pages i table user has j small present).toDisposable

/-- Giving up: the loose table is freed and the new directory destroyed. -/
theorem Cloning.abandon (cloning : Cloning kernelEnd live src dst turns p) (loose : Loose kernelEnd live p table) :
    Active kernelEnd (without live dst) ((p.freeBlock table).destroyAddressSpace dst) := by
  obtain ⟨freed, kept⟩ := cloning.active.freeBlock loose.behind loose.vacant
  have intact := cloning.active.toIntact
  have same := kept.directories intact fun _ _ none => none
  apply freed.destroyAddressSpace cloning.target
  intro i table user has j small present
  have before := (same.hasTable (.inr cloning.target)).mp has
  have windowed := cloning.active.table_windowed (.inr cloning.target) before
  rw [kept.entry table j windowed.toBehind id small] at present ⊢
  obtain ⟨behind, vacant⟩ := cloning.releasable i table user before j small present
  exact ⟨behind, kept.vacant intact (fun _ _ none => none) vacant⟩

/-- The filled table is linked into the new directory. -/
theorem Cloning.link (cloning : Cloning kernelEnd live src dst turns p) (loose : Loose kernelEnd live p table)
    (windowed : Windowed kernelEnd table) (small : index.toNat < 768) (points : pageOf value = table)
    (fine : ∀ j : Word, j.toNat < 1024 → Fine kernelEnd live p table j)
    (others : ∀ i other, i.toNat < 768 → p.HasTable dst i other → ∀ j : Word, j.toNat < 1024 →
      p.entry other j &&& pagePresent ≠ 0 → pageOf (p.entry other j) ≠ table) :
    Cloning kernelEnd live src dst turns (p.write (dst + 4 * index) value) ∧
      (p.write (dst + 4 * index) value).tablesCost src turns = p.tablesCost src turns := by
  have active := cloning.active
  have target : p.Known live dst := .inr cloning.target
  have created : dst ≠ p.kernelDirectory := by
    rintro rfl
    exact active.kernel cloning.target
  have dstWindowed := active.directory_windowed target
  have wide : index.toNat < 1024 := by omega
  have stored := active.store_directory target wide (fun kernel => absurd kernel created) value
    (fun _ => fits_vacant (points.symm ▸ windowed) (points.symm ▸ loose.inUse) (points.symm ▸ loose.vacant))
  have word (page second : Word) (aligned : Page page) (secondSmall : second.toNat < 1024) :
      (p.write (dst + 4 * index) value).entry page second =
        if dst = page ∧ index = second then value else p.entry page second :=
    entry_write dstWindowed.aligned aligned wide secondSmall
  have statics : SameStatics p (p.write (dst + 4 * index) value) := p.sameStatics_write _ _
  have bits (frame : Nat) (bound : frame < reach kernelEnd) :
      (p.write (dst + 4 * index) value).inUse frame = p.inUse frame :=
    bits_write dstWindowed.toBehind active.bitmapAddr wide value bound
  generalize p.write (dst + 4 * index) value = q at *
  have elsewhere {page : Word} (aligned : Page page) (different : page ≠ dst) (second : Word) (secondSmall : second.toNat < 1024) :
      q.entry page second = p.entry page second := by
    rw [word page second aligned secondSmall, if_neg fun same => different same.1.symm]
  have tableWords {space i other : Word} (known : p.Known live space) (has : p.HasTable space i other) (j : Word)
      (jSmall : j.toNat < 1024) : q.entry other j = p.entry other j := by
    apply elsewhere has.page _ j jSmall
    rintro rfl
    exact active.apart _ _ _ known target has
  -- behind an entry of the new directory stands an old table or the linked one
  have cases {space i other : Word} (known : p.Known live space) (has : q.HasTable space i other) :
      p.HasTable space i other ∨ other = table := by
    have here := word space i (active.directory_windowed known).aligned has.small
    by_cases same : dst = space ∧ index = i
    · rw [if_pos same] at here
      right
      rw [← has.points, here, points]
    · rw [if_neg same] at here
      exact .inl ⟨has.small, here ▸ has.present, here ▸ has.points⟩
  have keeps {page : Word} (before : Loose kernelEnd live p page) (different : page ≠ table) : Loose kernelEnd live q page := by
    refine ⟨⟨before.behind, ?_⟩, by rw [bits _ before.behind.last]; exact before.inUse⟩
    rintro ⟨space, known, here | ⟨i, has⟩⟩
    · exact before.vacant ⟨space, statics.known.mp known, .inl here⟩
    · rcases cases (statics.known.mp known) has with old | same
      · exact before.vacant ⟨space, statics.known.mp known, .inr ⟨i, old⟩⟩
      · exact different same
  have unchanged (i : Word) (iSmall : i.toNat < 1024) : q.entry src i = p.entry src i :=
    elsewhere (active.directory_windowed cloning.known).aligned cloning.apart i iSmall
  refine ⟨⟨stored, statics.known.mpr cloning.known, cloning.target, cloning.apart, cloning.user, ?_, ?_⟩, ?_⟩
  · intro i other user has j jSmall present
    rcases cases target has with old | rfl
    · rw [tableWords target old j jSmall] at present ⊢
      exact keeps (cloning.pages i other user old j jSmall present) (others i other user old j jSmall present)
    · have different : other ≠ dst := fun same => loose.unknown dst target same.symm
      rw [elsewhere windowed.aligned different j jSmall] at present ⊢
      obtain ⟨page, apart⟩ := fine j jSmall present
      exact keeps page apart
  · intro i member other has j jSmall present
    have before : p.HasTable src (BitVec.ofNat 32 i) other :=
      ⟨has.small, unchanged _ has.small ▸ has.present, unchanged _ has.small ▸ has.points⟩
    rw [tableWords cloning.known before j jSmall] at present ⊢
    exact cloning.inside i member other before j jSmall present
  · exact tablesCost_congr cloning.user unchanged fun i other has => tableWords cloning.known has

section Tables

variable {i : Nat}

theorem read_state (p : Paging) (address : Word) : (p.read address).2 = p.touch address := rfl

theorem cloneTables_absent (absent : p.entry src (BitVec.ofNat 32 i) &&& pagePresent = 0) :
    cloneTables src dst (i :: rest) p = cloneTables src dst rest (p.touch (src + 4 * BitVec.ofNat 32 i)) := by
  rw [cloneTables, physToVirt_eq]
  exact if_pos absent

theorem cloneTables_failed (present : p.entry src (BitVec.ofNat 32 i) &&& pagePresent ≠ 0)
    (failed : (p.touch (src + 4 * BitVec.ofNat 32 i)).allocBlock.1 = 0) :
    cloneTables src dst (i :: rest) p =
      (false, (p.touch (src + 4 * BitVec.ofNat 32 i)).allocBlock.2.destroyAddressSpace dst) := by
  simp only [cloneTables, physToVirt_eq, read_entry, if_neg present]
  exact if_pos failed

theorem cloneTables_entries (present : p.entry src (BitVec.ofNat 32 i) &&& pagePresent ≠ 0)
    (granted : (p.touch (src + 4 * BitVec.ofNat 32 i)).allocBlock.1 ≠ 0) {entries : Bool × Paging}
    (shape : entries = cloneEntries (pageOf (p.entry src (BitVec.ofNat 32 i)))
      (p.touch (src + 4 * BitVec.ofNat 32 i)).allocBlock.1 (List.range 1024)
      (p.touch (src + 4 * BitVec.ofNat 32 i)).allocBlock.2) :
    cloneTables src dst (i :: rest) p =
      if entries.1 then cloneTables src dst rest ((entries.2.touch (src + 4 * BitVec.ofNat 32 i)).write
        (dst + 4 * BitVec.ofNat 32 i) ((p.touch (src + 4 * BitVec.ofNat 32 i)).allocBlock.1 |||
          (entries.2.entry src (BitVec.ofNat 32 i) &&& 0xFFF)))
      else (false, (entries.2.freeBlock (p.touch (src + 4 * BitVec.ofNat 32 i)).allocBlock.1).destroyAddressSpace dst) := by
  simp only [cloneTables, physToVirt_eq, read_entry, if_neg present, read_state, if_neg granted, ← shape]

end Tables

/-- A filled table, not yet linked: none of the pages behind the new directory
is the table. -/
structure Filled (kernelEnd : Word) (live : List Word) (src dst : Word) (turns : List Nat) (table : Word) (p : Paging) : Prop where
  cloning : Cloning kernelEnd live src dst turns p
  loose : Loose kernelEnd live p table
  windowed : Windowed kernelEnd table
  others : ∀ i other, i.toNat < 768 → p.HasTable dst i other → ∀ j : Word, j.toNat < 1024 →
    p.entry other j &&& pagePresent ≠ 0 → pageOf (p.entry other j) ≠ table

/-- A table is taken. -/
theorem Cloning.take (cloning : Cloning kernelEnd live src dst turns p) (granted : Granted kernelEnd live p table q)
    (some_free : 0 < p.spare (windowFrames kernelEnd)) :
    Filled kernelEnd live src dst turns table q ∧ q.tablesCost src turns = p.tablesCost src turns := by
  have intact := cloning.active.toIntact
  obtain ⟨taken, cost⟩ := cloning.grow granted.active (granted.grown intact) fun _ none => none.elim
  refine ⟨⟨taken, ⟨⟨granted.behind, granted.vacant_after intact⟩, granted.inUse⟩, granted.windowed some_free, ?_⟩, cost⟩
  intro i other user has j small present same
  have before : p.HasTable dst i other :=
    ((granted.kept.directories intact fun _ _ none => none).hasTable (.inr cloning.target)).mp has
  have windowed := cloning.active.table_windowed (.inr cloning.target) before
  rw [granted.kept.entry other j windowed.toBehind id small] at present same
  -- the page was in use when the table was still free
  have used := (cloning.pages i other user before j small present).inUse
  rw [same, granted.allocated.free] at used
  cases used

/-- Copying entries into it. -/
theorem Filled.copied {cost : Nat} (filled : Filled kernelEnd live src dst turns table p)
    (copied : Copied kernelEnd live table p q cost) :
    Filled kernelEnd live src dst turns table q ∧ q.tablesCost src turns = p.tablesCost src turns := by
  have active := filled.cloning.active
  have target : p.Known live dst := .inr filled.cloning.target
  obtain ⟨cloning, same⟩ := filled.cloning.grow copied.active copied.grown (by rintro _ rfl; exact filled.loose.vacant)
  refine ⟨⟨cloning, copied.loose, filled.windowed, ?_⟩, same⟩
  intro i other user has j small present
  have before : p.HasTable dst i other :=
    ((copied.grown.directories active.toIntact filled.loose.unknown).hasTable target).mp has
  obtain ⟨windowed, used⟩ := active.windowed other ⟨dst, target, .inr ⟨i, before⟩⟩
  have different : other ≠ table := by
    rintro rfl
    exact filled.loose.vacant ⟨dst, target, .inr ⟨i, before⟩⟩
  rw [copied.grown.entry other j windowed.toBehind used different small] at present ⊢
  exact filled.others i other user before j small present

theorem entriesCost_congr {source : Word} (words : ∀ j : Word, j.toNat < 1024 → q.entry source j = p.entry source j) :
    q.entriesCost source (List.range 1024) = p.entriesCost source (List.range 1024) := by
  have blocks : (List.range 1024).flatMap (fun j => entryBlock (q.entry source (BitVec.ofNat 32 j))) =
      (List.range 1024).flatMap fun j => entryBlock (p.entry source (BitVec.ofNat 32 j)) := by
    apply List.flatMap_congr
    intro j member
    have small := List.mem_range.mp member
    rw [words _ (by rwa [toNat_ofNat_index small])]
  rw [entriesCost, entriesCost, blocks]

/-- The whole inner loop. -/
theorem Filled.entries {source : Word} (filled : Filled kernelEnd live src dst turns table p)
    (windowed : Windowed kernelEnd source) (used : p.inUse (source.toNat / 4096) = true) (apart : source ≠ table)
    (inside : ∀ j : Word, j.toNat < 1024 → p.entry source j &&& pagePresent ≠ 0 → (pageOf (p.entry source j)).toNat < windowSize)
    (enough : p.entriesCost source (List.range 1024) ≤ p.spare (windowFrames kernelEnd)) {result : Bool × Paging}
    (shape : result = cloneEntries source table (List.range 1024) p) :
    Filled kernelEnd live src dst turns table result.2 ∧ result.2.tablesCost src turns = p.tablesCost src turns ∧
      (result.1 = true →
        result.2.spare (windowFrames kernelEnd) + p.entriesCost source (List.range 1024) = p.spare (windowFrames kernelEnd) ∧
        ∀ j : Word, j.toNat < 1024 → Fine kernelEnd live result.2 table j) := by
  have small (j : Nat) (member : j ∈ List.range 1024) : j < 1024 := List.mem_range.mp member
  obtain ⟨cost, copied, done⟩ := filled.cloning.active.cloneEntries filled.loose filled.windowed windowed used apart small
    (fun j member => inside _ (by rw [toNat_ofNat_index (small j member)]; exact small j member)) enough
  rw [← shape] at copied done
  obtain ⟨after, same⟩ := filled.copied copied
  refine ⟨after, same, ?_⟩
  intro finished
  obtain ⟨exactly, all⟩ := done finished
  refine ⟨exactly ▸ copied.spare, ?_⟩
  intro j jSmall
  have fine := all j.toNat (List.mem_range.mpr jSmall)
  rwa [ofNat_toNat_index] at fine

/-- The end of a turn of the outer loop. -/
theorem Filled.link {i : Nat} (filled : Filled kernelEnd live src dst turns table p) (user : i < 768)
    (fine : ∀ j : Word, j.toNat < 1024 → Fine kernelEnd live p table j) :
    let next := (p.touch (src + 4 * BitVec.ofNat 32 i)).write (dst + 4 * BitVec.ofNat 32 i)
      (table ||| (p.entry src (BitVec.ofNat 32 i) &&& 0xFFF))
    Cloning kernelEnd live src dst turns next ∧ next.tablesCost src turns = p.tablesCost src turns ∧
      next.spare (windowFrames kernelEnd) = p.spare (windowFrames kernelEnd) := by
  intro next
  have active := filled.cloning.active
  have number : (BitVec.ofNat 32 i).toNat = i := toNat_ofNat_index (by omega)
  have small : (BitVec.ofNat 32 i).toNat < 1024 := by omega
  have looked := active.copied_touch filled.loose ((active.directory_windowed filled.cloning.known).place small)
  obtain ⟨again, lookedCost⟩ := filled.copied looked
  have points : pageOf (table ||| (p.entry src (BitVec.ofNat 32 i) &&& 0xFFF)) = table :=
    pageOf_or filled.windowed.aligned (offset_lt _)
  obtain ⟨linked, linkedCost⟩ := again.cloning.link again.loose again.windowed
    (by omega : (BitVec.ofNat 32 i).toNat < 768) points (fun j jSmall => looked.fine j jSmall (fine j jSmall)) again.others
  refine ⟨linked, linkedCost.trans lookedCost, ?_⟩
  have near := windowFrames_le_reach kernelEnd
  have windowed := looked.active.directory_windowed (.inr filled.cloning.target)
  exact spare_congr fun frame bound => bits_write windowed.toBehind looked.active.bitmapAddr small _ (by omega)

theorem Cloning.cloneTables (cloning : Cloning kernelEnd live src dst turns p)
    (enough : p.tablesCost src turns ≤ p.spare (windowFrames kernelEnd)) :
    Active kernelEnd (if (Paging.cloneTables src dst turns p).1 then live else without live dst)
      (Paging.cloneTables src dst turns p).2 := by
  induction turns generalizing p with
  | nil => exact cloning.active
  | cons i rest ih =>
    have active := cloning.active
    have number : (BitVec.ofNat 32 i).toNat = i := toNat_ofNat_index (by have := cloning.user i List.mem_cons_self; omega)
    have user := cloning.user i List.mem_cons_self
    have small : (BitVec.ofNat 32 i).toNat < 1024 := by omega
    have place := (active.directory_windowed cloning.known).place small
    have looked := active.touch place
    have lookedKept : Kept kernelEnd (fun _ => False) p (p.touch (src + 4 * BitVec.ofNat 32 i)) := kept_touch p _
    have lookedGrown : Grown kernelEnd (fun _ => False) p (p.touch (src + 4 * BitVec.ofNat 32 i)) :=
      lookedKept.grown (fun _ _ used => used) fun _ none => none.elim
    by_cases present : p.entry src (BitVec.ofNat 32 i) &&& pagePresent ≠ 0
    · have has : p.HasTable src (BitVec.ofNat 32 i) (pageOf (p.entry src (BitVec.ofNat 32 i))) := ⟨small, present, rfl⟩
      have share : p.tablesCost src (i :: rest) =
          p.entriesCost (pageOf (p.entry src (BitVec.ofNat 32 i))) (List.range 1024) + 1 + p.tablesCost src rest := by
        have blocks := has.tableBlocks_eq
        rw [number] at blocks
        rw [tablesCost, List.flatMap_cons, List.length_append, blocks, List.length_append, List.length_singleton, pageBlocks,
          entriesCost, tablesCost]
      have some_free : 0 < p.spare (windowFrames kernelEnd) := by omega
      have far := p.spare_mono (windowFrames_le_reach kernelEnd)
      have reachable : 0 < (p.touch (src + 4 * BitVec.ofNat 32 i)).spare (reach kernelEnd) := lt_of_lt_of_le some_free far
      obtain ⟨lookedCloning, lookedCost⟩ := cloning.tail.grow looked lookedGrown fun _ none => none.elim
      rcases looked.allocBlock_cases reachable with nothing | granted
      · rw [cloneTables_failed present (by rw [nothing]), nothing]
        exact looked.destroyAddressSpace cloning.target lookedCloning.releasable
      · have nonnull := granted.behind.ne_zero active.kernelEnd_pos
        obtain ⟨taken, takenCost⟩ := lookedCloning.take granted some_free
        have less := granted.spare looked.toIntact some_free
        obtain ⟨source, used⟩ := active.windowed _ ⟨src, cloning.known, .inr ⟨_, has⟩⟩
        have different := granted.allocated.ne_of_inUse used
        have words (j : Word) (jSmall : j.toNat < 1024) : (p.touch (src + 4 * BitVec.ofNat 32 i)).allocBlock.2.entry
            (pageOf (p.entry src (BitVec.ofNat 32 i))) j = p.entry (pageOf (p.entry src (BitVec.ofNat 32 i))) j :=
          granted.kept.entry _ j source.toBehind id jSmall
        have sourceTaken := (granted.grown looked.toIntact).bits _ source.last used
        have before : (p.touch (src + 4 * BitVec.ofNat 32 i)).spare (windowFrames kernelEnd) =
          p.spare (windowFrames kernelEnd) := rfl
        obtain ⟨result, shape⟩ : ∃ result, result = cloneEntries (pageOf (p.entry src (BitVec.ofNat 32 i)))
          (p.touch (src + 4 * BitVec.ofNat 32 i)).allocBlock.1 (List.range 1024)
          (p.touch (src + 4 * BitVec.ofNat 32 i)).allocBlock.2 := ⟨_, rfl⟩
        obtain ⟨filled, filledCost, done⟩ := taken.entries source sourceTaken different
          (fun j jSmall => by
            rw [words j jSmall]
            exact cloning.inside i List.mem_cons_self _ has j jSmall)
          (by rw [entriesCost_congr words]; omega) shape
        rw [cloneTables_entries present nonnull shape]
        cases finished : result.1 with
        | true =>
          obtain ⟨spent, fine⟩ := done finished
          obtain ⟨next, nextCost, nextSpare⟩ := filled.link user fine
          rw [if_pos rfl]
          apply ih next
          rw [nextCost, nextSpare, filledCost, takenCost, lookedCost]
          rw [entriesCost_congr words] at spent
          omega
        | false =>
          rw [if_neg Bool.false_ne_true, if_neg Bool.false_ne_true]
          exact filled.cloning.abandon filled.loose
    · have absent : p.entry src (BitVec.ofNat 32 i) &&& pagePresent = 0 := not_not.mp present
      rw [cloneTables_absent absent]
      obtain ⟨next, cost⟩ := cloning.tail.grow looked lookedGrown fun _ none => none.elim
      apply ih next
      have nothing : p.tableBlocks src i = [] := by rw [tableBlocks, entryBlock_absent absent, List.flatMap_nil]
      rw [cost]
      rw [tablesCost, List.flatMap_cons, nothing, List.nil_append] at enough
      exact enough

/-- Cloning an address space whose pages lie in the window, with a frame there
for every directory, table and page of the copy. -/
theorem Active.cloneAddressSpace (active : Active kernelEnd live p) (known : p.Known live src)
    (inside : ∀ i table, i.toNat < 768 → p.HasTable src i table → ∀ j : Word, j.toNat < 1024 →
      p.entry table j &&& pagePresent ≠ 0 → (pageOf (p.entry table j)).toNat < windowSize)
    (enough : (p.owned src).length ≤ p.spare (windowFrames kernelEnd)) :
    Active kernelEnd (if (p.cloneAddressSpace src).1 = 0 then live else (p.cloneAddressSpace src).1 :: live)
      (p.cloneAddressSpace src).2 := by
  have cost : (p.owned src).length = p.tablesCost src (List.range 768) + 1 := by
    rw [owned, List.length_append, List.length_singleton, tablesCost]
  rcases active.createAddressSpace_cases (by omega) with nothing | created
  · simp only [Paging.cloneAddressSpace, nothing, ↓reduceIte]
    exact active
  · have nonnull := created.nonnull
    simp only [Paging.cloneAddressSpace, if_neg nonnull]
    generalize p.createAddressSpace.1 = dst at *
    generalize p.createAddressSpace.2 = q at *
    have same := created.grown.directories active.toIntact fun _ _ none => none
    have words {page : Word} (occupied : p.Occupied (p.Known live) page) (j : Word) (small : j.toNat < 1024) :
        q.entry page j = p.entry page j := by
      obtain ⟨windowed, used⟩ := active.windowed page occupied
      exact created.grown.entry page j windowed.toBehind used id small
    have apart : src ≠ dst := by
      rintro rfl
      have used := (active.windowed src ⟨src, known, .inl rfl⟩).2
      rw [created.free] at used
      cases used
    have user (i : Nat) (member : i ∈ List.range 768) : i < 768 := List.mem_range.mp member
    have knownAfter : q.Known (dst :: live) src := by
      rcases created.grown.statics.known.mpr known with kernel | member
      · exact .inl kernel
      · exact .inr (List.mem_cons_of_mem _ member)
    have cloning : Cloning kernelEnd (dst :: live) src dst (List.range 768) q := by
      refine ⟨created.active, knownAfter, List.mem_cons_self, apart, user, ?_, ?_⟩
      · intro i table small has
        exact absurd (by rw [created.empty i small]; decide) has.present
      · intro i member table has j small present
        have before := (same.hasTable known).mp has
        have number : (BitVec.ofNat 32 i).toNat = i := toNat_ofNat_index (by have := user i member; omega)
        rw [words ⟨src, known, .inr ⟨_, before⟩⟩ j small] at present ⊢
        exact inside _ table (by rw [number]; exact user i member) before j small present
    have sameCost : q.tablesCost src (List.range 768) = p.tablesCost src (List.range 768) :=
      tablesCost_congr user (words ⟨src, known, .inl rfl⟩) fun i table has => words ⟨src, known, .inr ⟨i, has⟩⟩
    have spare := created.spare
    have cloned := cloning.cloneTables (by omega)
    generalize cloneTables src dst (List.range 768) q = result at *
    cases finished : result.1 with
    | true =>
      simp only [finished, ↓reduceIte, if_neg nonnull] at cloned ⊢
      exact cloned
    | false =>
      simp only [finished, Bool.false_eq_true, ↓reduceIte] at cloned ⊢
      apply cloned.mono
      intro space member
      refine List.mem_filter.mpr ⟨List.mem_cons_of_mem _ member, ?_⟩
      have used := (active.windowed space ⟨space, .inr member, .inl rfl⟩).2
      have different : space ≠ dst := by
        rintro rfl
        rw [created.free] at used
        cases used
      simpa using different

end Clone

end MexOS.Mm.Paging
