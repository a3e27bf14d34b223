import MexOS.Fs.Allocator

/-! What the calls leave of the bitmaps, whatever the drive does. -/

namespace MexOS.Fs.Diskfs

open MexOS.Machine

/-- The bitmaps and the superblock in memory are as they were. -/
structure SameMaps (fs after : Diskfs) : Prop where
  inodeBitmap : after.inodeBitmap = fs.inodeBitmap
  blockBitmap : after.blockBitmap = fs.blockBitmap
  superblock : after.superblock = fs.superblock

variable {fs after : Diskfs} {drive : Byte} {ino : Word}

theorem SameMaps.trans {mid : Diskfs} (left : SameMaps fs mid) (right : SameMaps mid after) : SameMaps fs after :=
  ⟨right.inodeBitmap.trans left.inodeBitmap, right.blockBitmap.trans left.blockBitmap, right.superblock.trans left.superblock⟩

theorem readInode_sameMaps {result : Except Int Inode} (call : fs.readInode drive ino = some (result, after)) :
    SameMaps fs after := by
  unfold readInode at call
  split at call
  · cases call
    exact ⟨rfl, rfl, rfl⟩
  split at call
  · cases call
    exact ⟨rfl, rfl, rfl⟩
  dsimp only at call
  split at call
  · cases call
    exact ⟨rfl, rfl, rfl⟩
  split at call
  · cases call
  · cases call
    exact ⟨rfl, rfl, rfl⟩

theorem readLoop_sameMaps {inode : Inode} {offset size : Word} {turns moved : Nat} {buffer result : Bytes} {ret : Int}
    (call : readLoop inode offset size turns fs moved buffer = some (ret, result, after)) : SameMaps fs after := by
  induction turns generalizing fs moved buffer with
  | zero => cases call
  | succ turns ih =>
    rw [readLoop] at call
    dsimp only at call
    split at call
    · cases call
      exact ⟨rfl, rfl, rfl⟩
    split at call
    · cases call
      exact ⟨rfl, rfl, rfl⟩
    split at call
    · cases call
      exact ⟨rfl, rfl, rfl⟩
    split at call
    · cases call
      exact ⟨rfl, rfl, rfl⟩
    · obtain ⟨inodes, blocks, superblock⟩ := ih call
      exact ⟨inodes, blocks, superblock⟩

theorem read_sameMaps {buffer result : Bytes} {offset size : Word} {ret : Int}
    (call : fs.read ino buffer offset size = some (ret, result, after)) : SameMaps fs after := by
  rw [read] at call
  split at call
  · cases call
    exact ⟨rfl, rfl, rfl⟩
  obtain ⟨⟨loaded, mid⟩, load, call⟩ := Option.bind_eq_some_iff.mp call
  have kept := readInode_sameMaps load
  cases loaded with
  | error _ =>
    cases call
    exact kept
  | ok inode =>
    dsimp only at call
    split at call
    · cases call
      exact kept
    · exact kept.trans (readLoop_sameMaps call)

theorem lookupLoop_sameMaps {junk : Nat → Dirent} {name : CString} {turns i : Nat} {found : Int}
    (call : lookupLoop junk ino name turns fs i = some (found, after)) : SameMaps fs after := by
  induction turns generalizing fs i with
  | zero =>
    cases call
    exact ⟨rfl, rfl, rfl⟩
  | succ turns ih =>
    rw [lookupLoop] at call
    obtain ⟨⟨ret, entry, mid⟩, read, call⟩ := Option.bind_eq_some_iff.mp call
    have kept := read_sameMaps read
    dsimp only at call
    split at call
    · cases call
      exact kept
    split at call
    · exact kept.trans (ih call)
    · obtain ⟨equal, _, call⟩ := Option.bind_eq_some_iff.mp call
      split at call
      · cases call
        exact kept
      · exact kept.trans (ih call)

theorem lookup_sameMaps {junk : Nat → Dirent} {name : CString} {found : Int}
    (call : fs.lookup junk ino name = some (found, after)) : SameMaps fs after := by
  rw [lookup] at call
  split at call
  · cases call
    exact ⟨rfl, rfl, rfl⟩
  obtain ⟨⟨loaded, mid⟩, load, call⟩ := Option.bind_eq_some_iff.mp call
  have kept := readInode_sameMaps load
  cases loaded with
  | error _ =>
    cases call
    exact kept
  | ok dir =>
    dsimp only at call
    split at call
    · cases call
      exact kept
    · exact kept.trans (lookupLoop_sameMaps call)

theorem writeInode_sameMaps {inode : Inode} {ret : Int} (call : fs.writeInode drive ino inode = some (ret, after)) :
    SameMaps fs after := by
  unfold writeInode at call
  split at call
  · cases call
    exact ⟨rfl, rfl, rfl⟩
  dsimp only at call
  split at call
  · cases call
    exact ⟨rfl, rfl, rfl⟩
  split at call
  · cases call
  split at call
  · cases call
    exact ⟨rfl, rfl, rfl⟩
  split at call <;> cases call <;> exact ⟨rfl, rfl, rfl⟩

theorem claimBlock_inodeBitmap {inode : Inode} {index : Nat} {found : Option Inode}
    (call : fs.claimBlock inode index = some (found, after)) : after.inodeBitmap = fs.inodeBitmap := by
  rw [claimBlock] at call
  split at call
  · obtain ⟨⟨block, mid⟩, alloc, call⟩ := Option.bind_eq_some_iff.mp call
    have kept : mid.inodeBitmap = fs.inodeBitmap := by
      rw [allocBlock] at alloc
      obtain ⟨bit, _, alloc⟩ := Option.bind_eq_some_iff.mp alloc
      split at alloc <;> cases alloc <;> rfl
    dsimp only at call
    split at call <;> cases call <;> exact kept
  · cases call
    rfl

theorem storeChunk_inodeBitmap (fs : Diskfs) (block : Word) (start : Nat) (source : Bytes) (moved length : Nat) :
    (fs.storeChunk block start source moved length).2.inodeBitmap = fs.inodeBitmap := by
  rw [storeChunk]
  dsimp only
  split
  · split
    · rfl
    split <;> rfl
  · split
    · rfl
    split <;> rfl

theorem writeLoop_inodeBitmap {source : Bytes} {offset size : Word} {turns moved : Nat} {inode : Inode}
    {result : Option (Inode × Nat)} (call : writeLoop source offset size turns fs inode moved = some (result, after)) :
    after.inodeBitmap = fs.inodeBitmap := by
  induction turns generalizing fs inode moved with
  | zero => cases call
  | succ turns ih =>
    rw [writeLoop] at call
    split at call
    · cases call
      rfl
    split at call
    · cases call
      rfl
    split at call
    · cases call
    · next mid claim =>
      cases call
      exact claimBlock_inodeBitmap claim
    · next new mid claim =>
      have kept := claimBlock_inodeBitmap claim
      split at call
      · next stored store =>
        have same := mid.storeChunk_inodeBitmap (new.block ((offset + BitVec.ofNat 32 moved).toNat / 512))
          ((offset + BitVec.ofNat 32 moved).toNat % 512) source moved
          (chunk (offset + BitVec.ofNat 32 moved).toNat (size.toNat - moved))
        rw [store] at same
        exact (ih call).trans (same.trans kept)
      · next failed stored _ store =>
        have same := mid.storeChunk_inodeBitmap (new.block ((offset + BitVec.ofNat 32 moved).toNat / 512))
          ((offset + BitVec.ofNat 32 moved).toNat % 512) source moved
          (chunk (offset + BitVec.ofNat 32 moved).toNat (size.toNat - moved))
        rw [store] at same
        cases call
        exact same.trans kept

theorem write_inodeBitmap {source : Bytes} {offset size now : Word} {ret : Int}
    (call : fs.write ino source offset size now = some (ret, after)) : after.inodeBitmap = fs.inodeBitmap := by
  rw [write] at call
  split at call
  · cases call
    rfl
  obtain ⟨⟨loaded, mid⟩, load, call⟩ := Option.bind_eq_some_iff.mp call
  have kept := (readInode_sameMaps load).inodeBitmap
  cases loaded with
  | error _ =>
    cases call
    exact kept
  | ok inode =>
    obtain ⟨⟨result, last⟩, loop, call⟩ := Option.bind_eq_some_iff.mp call
    have moved := (writeLoop_inodeBitmap loop).trans kept
    cases result with
    | none =>
      cases call
      exact moved
    | some changed =>
      obtain ⟨⟨code, stored⟩, store, call⟩ := Option.bind_eq_some_iff.mp call
      cases call
      exact (writeInode_sameMaps store).inodeBitmap.trans moved

theorem clearLoop_inodeBitmap {scrap : Nat → Dirent} {parentIno now : Word} {turns i : Nat}
    (call : clearLoop scrap parentIno ino now turns fs i = some after) : after.inodeBitmap = fs.inodeBitmap := by
  induction turns generalizing fs i with
  | zero =>
    cases call
    rfl
  | succ turns ih =>
    rw [clearLoop] at call
    obtain ⟨⟨ret, entry, mid⟩, read, call⟩ := Option.bind_eq_some_iff.mp call
    have kept := (read_sameMaps read).inodeBitmap
    dsimp only at call
    split at call
    · obtain ⟨⟨code, last⟩, write, call⟩ := Option.bind_eq_some_iff.mp call
      cases call
      exact (write_inodeBitmap write).trans kept
    · exact (ih call).trans kept

theorem freeBlocks_inodeBitmap {inode : Inode} (call : fs.freeBlocks inode = some after) :
    after.inodeBitmap = fs.inodeBitmap := by
  rw [freeBlocks] at call
  generalize List.range directBlocks = indices at call
  induction indices generalizing fs with
  | nil =>
    cases call
    rfl
  | cons index rest ih =>
    rw [List.foldlM_cons] at call
    obtain ⟨mid, turn, call⟩ := Option.bind_eq_some_iff.mp call
    refine (ih call).trans ?_
    split at turn
    · rw [freeBlock] at turn
      split at turn
      · cases turn
        rfl
      split at turn
      · cases turn
      · cases turn
        rfl
    · cases turn
      rfl

theorem sync_inodeBitmap (fs : Diskfs) : fs.sync.2.inodeBitmap = fs.inodeBitmap := by
  rw [sync]
  split
  · rfl
  · dsimp only
    rw [writeBitmaps]
    dsimp only
    split <;> rfl

/-- Giving back an inode clears its bit at most. -/
theorem freeInode_inodeBitmap {bit : Nat} (other : bit ≠ ino.toNat) (call : fs.freeInode ino = some after) :
    after.inodeBitmap.test bit = fs.inodeBitmap.test bit := by
  rw [freeInode] at call
  split at call
  · cases call
    rfl
  split at call
  · cases call
  · cases call
    rw [Bitmap.test_clear _ (by decide), decide_eq_false (Ne.symm other)]
    rfl

/-- Of the inodes `diskfs_delete` gives back one alone. -/
theorem deleteInode_inodeBitmap {scrap : Nat → Dirent} {parentIno now : Word} {inode : Inode} {result : Int} {bit : Nat}
    (other : bit ≠ ino.toNat) (call : fs.deleteInode scrap parentIno ino inode now = some (result, after)) :
    after.inodeBitmap.test bit = fs.inodeBitmap.test bit := by
  rw [deleteInode] at call
  obtain ⟨freed, blocks, call⟩ := Option.bind_eq_some_iff.mp call
  obtain ⟨removed, inodes, call⟩ := Option.bind_eq_some_iff.mp call
  have kept : removed.inodeBitmap.test bit = fs.inodeBitmap.test bit := by
    rw [freeInode_inodeBitmap other inodes, freeBlocks_inodeBitmap blocks]
  obtain ⟨⟨loaded, mid⟩, load, call⟩ := Option.bind_eq_some_iff.mp call
  have same := (readInode_sameMaps load).inodeBitmap
  cases loaded with
  | error _ =>
    cases call
    rw [same, kept]
  | ok parent =>
    obtain ⟨cleared, clear, call⟩ := Option.bind_eq_some_iff.mp call
    cases call
    rw [sync_inodeBitmap, clearLoop_inodeBitmap clear, same, kept]

/-- A bit that is set stays set when `diskfs_create` takes another one, or gives
it back. -/
theorem createEntry_inodeBitmap {parentIno size type created written : Word} {name : CString} {result : Int} {bit : Nat}
    (used : fs.inodeBitmap.test bit = true)
    (call : fs.createEntry parentIno size name type created written = some (result, after)) :
    after.inodeBitmap.test bit = true := by
  rw [createEntry] at call
  obtain ⟨⟨number, mid⟩, alloc, call⟩ := Option.bind_eq_some_iff.mp call
  rw [allocInode] at alloc
  obtain ⟨found, search, alloc⟩ := Option.bind_eq_some_iff.mp alloc
  dsimp only at call
  by_cases full : found < 0
  · rw [if_pos full] at alloc
    cases alloc
    rw [if_pos (by decide)] at call
    cases call
    exact used
  rw [if_neg full] at alloc
  cases alloc
  rw [if_neg full] at call
  obtain ⟨bound, free⟩ := bitmapFindFrom_unset search (by omega)
  have place : (BitVec.ofInt 32 number).toNat = number.toNat := by
    rw [maxBlocks] at bound
    rw [BitVec.toNat_ofInt]
    omega
  have other : bit ≠ (BitVec.ofInt 32 number).toNat := by
    intro same
    rw [place] at same
    rw [← same, used] at free
    cases free
  have taken : (fs.inodeBitmap.set number.toNat).test bit = true := by
    rw [Bitmap.test_set _ (by decide), used, Bool.or_true]
  obtain ⟨⟨ret, stored⟩, store, call⟩ := Option.bind_eq_some_iff.mp call
  have storedBitmap := (writeInode_sameMaps store).inodeBitmap
  dsimp only at call
  split at call
  · obtain ⟨freed, give, call⟩ := Option.bind_eq_some_iff.mp call
    cases call
    rw [freeInode_inodeBitmap other give, storedBitmap]
    exact taken
  obtain ⟨⟨count, last⟩, write, call⟩ := Option.bind_eq_some_iff.mp call
  have lastBitmap := write_inodeBitmap write
  dsimp only at call
  split at call
  · obtain ⟨freed, give, call⟩ := Option.bind_eq_some_iff.mp call
    cases call
    rw [freeInode_inodeBitmap other give, lastBitmap, storedBitmap]
    exact taken
  · cases call
    rw [sync_inodeBitmap, lastBitmap, storedBitmap]
    exact taken

theorem create_inodeBitmap {junk : Nat → Dirent} {parentIno type created written : Word} {name : CString} {result : Int}
    {bit : Nat} (used : fs.inodeBitmap.test bit = true)
    (call : fs.create junk parentIno name type created written = some (result, after)) :
    after.inodeBitmap.test bit = true := by
  rw [create] at call
  split at call
  · cases call
    exact used
  split at call
  · cases call
    exact used
  obtain ⟨⟨loaded, mid⟩, load, call⟩ := Option.bind_eq_some_iff.mp call
  have kept := (readInode_sameMaps load).inodeBitmap
  cases loaded with
  | error _ =>
    cases call
    rw [kept, used]
  | ok parent =>
    dsimp only at call
    split at call
    · cases call
      rw [kept, used]
    obtain ⟨⟨found, last⟩, look, call⟩ := Option.bind_eq_some_iff.mp call
    have same := (lookup_sameMaps look).inodeBitmap
    dsimp only at call
    split at call
    · cases call
      rw [same, kept, used]
    · exact createEntry_inodeBitmap (by rw [same, kept, used]) call

/-- What `diskfs_lookup` does not find is not given back by `diskfs_delete`. -/
theorem delete_inodeBitmap {junk scrap : Nat → Dirent} {parentIno now : Word} {name : CString} {result : Int} {bit : Nat}
    (other : ∀ found mid, fs.lookup junk parentIno name = some (found, mid) → 0 ≤ found →
      bit ≠ (BitVec.ofInt 32 found).toNat)
    (call : fs.delete junk scrap parentIno name now = some (result, after)) :
    after.inodeBitmap.test bit = fs.inodeBitmap.test bit := by
  rw [delete] at call
  split at call
  · cases call
    rfl
  obtain ⟨⟨found, mid⟩, look, call⟩ := Option.bind_eq_some_iff.mp call
  have same := (lookup_sameMaps look).inodeBitmap
  dsimp only at call
  by_cases missing : found < 0
  · rw [if_pos missing] at call
    cases call
    rw [same]
  rw [if_neg missing] at call
  obtain ⟨⟨loaded, last⟩, load, call⟩ := Option.bind_eq_some_iff.mp call
  have kept := (readInode_sameMaps load).inodeBitmap
  cases loaded with
  | error _ =>
    cases call
    rw [kept, same]
  | ok inode =>
    dsimp only at call
    split at call
    · cases call
      rw [kept, same]
    · rw [deleteInode_inodeBitmap (other found mid look (by omega)) call, kept, same]

end MexOS.Fs.Diskfs
