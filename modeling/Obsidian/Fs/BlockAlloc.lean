import Obsidian.Fs.BlockMap

/-!
# Taking and freeing blocks

`e4AllocBlockNear` takes the slot that `SlotMap.pick` names in the order in which
the groups are visited, and `e4FreeBlock` clears the bit of its block. Both keep
`Consistent`. A call that returns failure changes buffers only.

What a write, the descriptor's write and the bitmap's write do is stated under any
failures first; with none the bitmap is on the disk as a whole.
-/
namespace Obsidian.Fs
open Lib Lib.Bytes Drivers

variable {w w' w'' : World} {d g h i b n : Nat} {bm buf : Bytes}

/-! ## One block written -/

/-- On the disk, only block `b` differs, and holds `buf`. -/
structure Wrote (w w' : World) (d b : Nat) (buf : Bytes) : Prop where
  kept : Kept w w'
  e4 : w'.e4 = w.e4
  scratch1 : w'.scratch1 = w.scratch1
  same : ∀ k, k < w.e4.blockSize → w'.disk d (b * w.e4.blockSize + k) = buf k
  other : ∀ c, c ≠ b → ∀ k, k < w.e4.blockSize →
    w'.disk d (c * w.e4.blockSize + k) = w.disk d (c * w.e4.blockSize + k)

/-- On the disk only the first `n` octets of block `b` differ, and hold those of `buf`. -/
structure PartWrote (w w' : World) (d b : Nat) (buf : Bytes) (n : Nat) : Prop where
  kept : Kept w w'
  e4 : w'.e4 = w.e4
  scratch1 : w'.scratch1 = w.scratch1
  ios : w'.bus.ios = w.bus.ios + 1
  block : ∀ k, k < w.e4.blockSize → w'.disk d (b * w.e4.blockSize + k) =
    if k < n then buf k else w.disk d (b * w.e4.blockSize + k)
  other : ∀ c, c ≠ b → ∀ k, k < w.e4.blockSize →
    w'.disk d (c * w.e4.blockSize + k) = w.disk d (c * w.e4.blockSize + k)

theorem PartWrote.whole (wrote : PartWrote w w' d b buf w.e4.blockSize) : Wrote w w' d b buf := by
  refine ⟨wrote.kept, wrote.e4, wrote.scratch1, fun k hk => ?_, wrote.other⟩
  rw [wrote.block k hk, if_pos hk]

theorem Mounted.wrote (m : Mounted w d) (inside : b < w.e4.blocksCount) (buf : Bytes) :
    ∃ w', e4WriteBlock b buf w = (if w.succeeds w.bus.ios b then some () else none, w') ∧
      PartWrote w w' d b buf (w.movedOctets w.bus.ios b) := by
  refine ⟨_, m.write inside buf, ⟨rfl, fun e => setData_kept _ _ _ _, rfl⟩, rfl, rfl, rfl, ?_, ?_⟩
  · intro k _
    simp only [World.disk, Bus.tick, disk_setData]
    exact copy_block_same _ _ _ _ _ _
  · intro c hne k hk
    simp only [World.disk, Bus.tick, disk_setData]
    exact copy_block_other _ _ (m.movedOctets_le _ _) hne hk

theorem Transfers.wrote (t : Transfers w d) (inside : b < w.e4.blocksCount) (buf : Bytes) :
    ∃ w', e4WriteBlock b buf w = (some (), w') ∧ Wrote w w' d b buf := by
  obtain ⟨w', hwrite, wrote⟩ := t.mounted.wrote inside buf
  rw [t.succeeds] at hwrite
  rw [t.movedOctets] at wrote
  exact ⟨w', hwrite, wrote.whole⟩

theorem used_unwritten (he4 : w'.e4 = w.e4) (other : ∀ c, c ≠ b → ∀ k, k < w.e4.blockSize →
      w'.disk d (c * w.e4.blockSize + k) = w.disk d (c * w.e4.blockSize + k))
    (apart : ∀ g, g < w.e4.groupCount → w.e4.bitmapBlock false g ≠ b) : w'.used d = w.used d := by
  funext g i
  unfold World.used
  rw [he4]
  by_cases hin : g < w.e4.groupCount ∧ i < 8 * w.e4.blockSize
  · rw [decide_eq_true hin]
    apply bitAt_congr
    exact other _ (apart g hin.1) _ (by omega)
  · rw [decide_eq_false hin, Bool.false_and, Bool.false_and]

theorem Wrote.used (wrote : Wrote w w' d b buf)
    (apart : ∀ g, g < w.e4.groupCount → w.e4.bitmapBlock false g ≠ b) : w'.used d = w.used d :=
  used_unwritten wrote.e4 wrote.other apart

theorem Wrote.consistent (c : Consistent w d) (wrote : Wrote w w' d b buf)
    (apart : ∀ g, g < w.e4.groupCount → w.e4.bitmapBlock false g ≠ b) : Consistent w' d :=
  c.same wrote.kept wrote.e4 (wrote.used apart)

/-! ## A bitmap written back -/

theorem Mounted.readScratch2 (m : Mounted w d) (inside : b < w.e4.blocksCount) :
    ∃ w', readScratch2 b w = (if w.succeeds w.bus.ios b then some () else none, w') ∧ Quiet w w' ∧
      w'.scratch1 = w.scratch1 ∧ w'.bus.ios = w.bus.ios + 1 := by
  refine ⟨{ w with
    bus := w.bus.tick
    scratch2 := copy w.scratch2 0 (w.disk d) (b * w.e4.blockSize) (w.movedOctets w.bus.ios b) },
    ?_, ⟨rfl, rfl, rfl, rfl⟩, rfl, rfl⟩
  simp only [Fs.readScratch2, m.read inside]

/-- Transfers that `e4_sync_gd` makes, from the one with number `n` on. -/
def World.syncIos (w : World) (n g : Nat) : Nat := if w.succeeds n (w.e4.descBlock g) then 2 else 1

theorem Mounted.syncGd (m : Mounted w d) (hg : g < w.e4.groupCount)
    (inside : w.e4.descBlock g < w.e4.blocksCount) :
    (e4SyncGd g w).1 = (if w.succeeds w.bus.ios (w.e4.descBlock g) &&
        w.succeeds (w.bus.ios + 1) (w.e4.descBlock g) then some () else none) ∧
      Kept w (e4SyncGd g w).2 ∧
      (e4SyncGd g w).2.e4 = { w.e4 with gdt := e4DescChecksumSet w.e4 g w.e4.gdt (w.e4.gdOff g) } ∧
      (e4SyncGd g w).2.scratch1 = w.scratch1 ∧
      (e4SyncGd g w).2.bus.ios = w.bus.ios + w.syncIos w.bus.ios g ∧
      ∀ c, c ≠ w.e4.descBlock g → ∀ k, k < w.e4.blockSize →
        (e4SyncGd g w).2.disk d (c * w.e4.blockSize + k) = w.disk d (c * w.e4.blockSize + k) := by
  generalize hw1 : { w with
    e4 := { w.e4 with gdt := e4DescChecksumSet w.e4 g w.e4.gdt (w.e4.gdOff g) } } = w1
  have k1 : Kept w w1 := by
    subst hw1
    exact ⟨rfl, fun _ => rfl, rfl⟩
  have hmid : setGdt (e4DescChecksumSet w.e4 g w.e4.gdt (w.e4.gdOff g)) w = (some (), w1) := by
    rw [← hw1]
    rfl
  have hios1 : w1.bus.ios = w.bus.ios := by
    rw [← hw1]
  obtain ⟨w2, hread, q2, hbuf2, hios2⟩ := (k1.mounted m).readScratch2 (b := w.e4.descBlock g)
    (by rw [← hw1]; exact inside)
  rw [k1.succeeds, hios1] at hread
  have k2 : Kept w w2 := k1.trans q2.kept
  have he4 : w2.e4 = { w.e4 with gdt := e4DescChecksumSet w.e4 g w.e4.gdt (w.e4.gdOff g) } := by
    rw [q2.e4, ← hw1]
  have hscratch : w2.scratch1 = w.scratch1 := by
    rw [hbuf2, ← hw1]
  have hdisk : w2.disk d = w.disk d := by
    rw [q2.disk, ← hw1]
    rfl
  have hrun : e4SyncGd g w = (Fs.readScratch2 (w.e4.descBlock g) >>= fun _ => Cmd.get >>= fun w =>
      setScratch2 (copy w.scratch2 (w.e4.descSlot g) w.e4.gdt (w.e4.gdOff g) w.e4.descSize) >>=
        fun _ =>
      Cmd.get >>= fun w => e4WriteBlock (w.e4.descBlock g) w.scratch2) w1 := by
    unfold e4SyncGd
    rw [Cmd.get_bind, if_neg (Nat.not_le.mpr hg), Cmd.bind_some hmid]
  unfold World.syncIos
  by_cases done : w.succeeds w.bus.ios (w.e4.descBlock g) = true
  · rw [if_pos done] at hread ⊢
    generalize hw3 : { w2 with
      scratch2 := copy w2.scratch2 (w2.e4.descSlot g) w2.e4.gdt (w2.e4.gdOff g) w2.e4.descSize } =
        w3
    have q3 : Quiet w2 w3 := by
      subst hw3
      exact ⟨rfl, rfl, rfl, rfl⟩
    have hset : setScratch2 (copy w2.scratch2 (w2.e4.descSlot g) w2.e4.gdt (w2.e4.gdOff g)
        w2.e4.descSize) w2 = (some (), w3) := by
      rw [← hw3]
      rfl
    have hblock : w3.e4.descBlock g = w.e4.descBlock g := by
      rw [q3.e4, he4]
      rfl
    obtain ⟨w', hwrite, wrote⟩ := ((k2.trans q3.kept).mounted m).wrote (b := w.e4.descBlock g)
      (by rw [q3.e4, he4]; exact inside) w3.scratch2
    rw [hrun, Cmd.bind_some hread, Cmd.get_bind, Cmd.bind_some hset, Cmd.get_bind, hblock, hwrite]
    have hsize : w3.e4.blockSize = w.e4.blockSize := (k2.trans q3.kept).blockSize
    refine ⟨?_, (k2.trans q3.kept).trans wrote.kept, ?_, ?_, ?_, ?_⟩
    · rw [done, Bool.true_and, (k2.trans q3.kept).succeeds, ← hw3]
      rw [hios2, hios1]
    · rw [wrote.e4, q3.e4, he4]
    · rw [wrote.scratch1, ← hscratch, ← hw3]
    · rw [wrote.ios, ← hw3]
      rw [hios2, hios1]
    · intro c hne k hk
      have hsame := wrote.other c hne k (by rw [hsize]; exact hk)
      rwa [hsize, q3.disk, hdisk] at hsame
  · rw [if_neg done] at hread ⊢
    rw [hrun, Cmd.bind_none hread]
    refine ⟨?_, k2, he4, hscratch, ?_, ?_⟩
    · rw [Bool.not_eq_true] at done
      rw [done]
      rfl
    · rw [hios2, hios1]
    · intro c _ k _
      rw [hdisk]

theorem Transfers.syncGd (t : Transfers w d) (hg : g < w.e4.groupCount)
    (inside : w.e4.descBlock g < w.e4.blocksCount) :
    ∃ w', e4SyncGd g w = (some (), w') ∧ Kept w w' ∧
      w'.e4 = { w.e4 with gdt := e4DescChecksumSet w.e4 g w.e4.gdt (w.e4.gdOff g) } ∧
      w'.scratch1 = w.scratch1 ∧
      ∀ c, c ≠ w.e4.descBlock g → ∀ k, k < w.e4.blockSize →
        w'.disk d (c * w.e4.blockSize + k) = w.disk d (c * w.e4.blockSize + k) := by
  obtain ⟨hreturn, kept, he4, hbuf, -, hsame⟩ := t.mounted.syncGd hg inside
  rw [t.succeeds, t.succeeds, Bool.true_and] at hreturn
  exact ⟨_, Prod.ext hreturn rfl, kept, he4, hbuf, hsame⟩

/-- What taking and freeing a block have in common: the bitmap `bm` of a group, which is in
the first buffer, is accounted for and written to its block. -/
def settle (g blk : Nat) (bm : Bytes) (delta : Int) : Cmd World Unit := do
  setScratch1 bm
  let w ← Cmd.get
  setGdt (e4BitmapChecksumSet w.e4 w.scratch1 false w.e4.gdt (w.e4.gdOff g))
  adjustFreeBlocks g delta
  Cmd.ignore (e4SyncGd g)
  let w ← Cmd.get
  e4WriteBlock blk w.scratch1

theorem takeBlock_settle (g blk bidx : Nat) (w : World) :
    takeBlock g blk bidx w =
    (Cmd.ignore (settle g blk (setBit w.scratch1 bidx) (-1)) >>= fun _ => do
      let w ← Cmd.get
      setScratch2 (fill w.scratch2 0 w.e4.blockSize 0)
      let w ← Cmd.get
      Cmd.ignore (e4WriteBlock (blkOf w.e4 g bidx) w.scratch2)) w := rfl

/-- The state after a bitmap was settled. -/
structure Settled (w w' : World) (d g : Nat) (bm : Bytes) (delta : Int) : Prop where
  kept : Kept w w'
  e4 : w'.e4 = w.e4.recount bm g delta
  bitmap : ∀ k, k < w.e4.blockSize →
    w'.disk d (w.e4.bitmapBlock false g * w.e4.blockSize + k) = bm k
  other : ∀ c, c ≠ w.e4.bitmapBlock false g → c ≠ w.e4.descBlock g → ∀ k, k < w.e4.blockSize →
    w'.disk d (c * w.e4.blockSize + k) = w.disk d (c * w.e4.blockSize + k)

/-- Octets of a bitmap that reach the disk when it is settled from transfer `n` on. -/
def World.settledOctets (w : World) (n g : Nat) : Nat :=
  w.movedOctets (n + w.syncIos n g) (w.e4.bitmapBlock false g)

/-- The state after a bitmap was settled, of which the first `n` octets have reached the disk. -/
structure SettledTo (w w' : World) (d g : Nat) (bm : Bytes) (delta : Int) (n : Nat) : Prop where
  kept : Kept w w'
  e4 : w'.e4 = w.e4.recount bm g delta
  bitmap : ∀ k, k < w.e4.blockSize → w'.disk d (w.e4.bitmapBlock false g * w.e4.blockSize + k) =
    if k < n then bm k else w.disk d (w.e4.bitmapBlock false g * w.e4.blockSize + k)
  other : ∀ c, c ≠ w.e4.bitmapBlock false g → c ≠ w.e4.descBlock g → ∀ k, k < w.e4.blockSize →
    w'.disk d (c * w.e4.blockSize + k) = w.disk d (c * w.e4.blockSize + k)

theorem Mounted.settle (m : Mounted w d) (hg : g < w.e4.groupCount)
    (bitmapInside : w.e4.bitmapBlock false g < w.e4.blocksCount)
    (descInside : w.e4.descBlock g < w.e4.blocksCount)
    (apart : w.e4.bitmapBlock false g ≠ w.e4.descBlock g) (bm : Bytes) (delta : Int) :
    ∃ w', settle g (w.e4.bitmapBlock false g) bm delta w =
        (if w.succeeds (w.bus.ios + w.syncIos w.bus.ios g) (w.e4.bitmapBlock false g) then some
          () else none, w') ∧
      SettledTo w w' d g bm delta (w.settledOctets w.bus.ios g) := by
  generalize he1 : { w.e4 with
    gdt := e4BitmapChecksumSet w.e4 bm false w.e4.gdt (w.e4.gdOff g) } = e1
  generalize hw1 : { w with scratch1 := bm, e4 := e1.adjusted g delta } = w1
  have k1 : Kept w w1 := by
    subst hw1 he1
    exact ⟨rfl, fun _ => rfl, rfl⟩
  have hblock1 : w1.e4.descBlock g = w.e4.descBlock g := by
    subst hw1 he1
    rfl
  have hios1 : w1.bus.ios = w.bus.ios := by
    rw [← hw1]
  have hdisk1 : w1.disk d = w.disk d := by
    rw [← hw1]
    rfl
  obtain ⟨-, k2, he2, hbuf, hios2, hsame⟩ := (k1.mounted m).syncGd (g := g)
    (by subst hw1 he1; exact hg) (by subst hw1 he1; exact descInside)
  have hadjust : (setScratch1 bm >>= fun _ => Cmd.get >>= fun w =>
      setGdt (e4BitmapChecksumSet w.e4 w.scratch1 false w.e4.gdt (w.e4.gdOff g)) >>= fun _ =>
      adjustFreeBlocks g delta) w = (some (), w1) := by
    subst hw1 he1
    rfl
  have hsplit : Fs.settle g (w.e4.bitmapBlock false g) bm delta w =
      ((setScratch1 bm >>= fun _ => Cmd.get >>= fun w =>
        setGdt (e4BitmapChecksumSet w.e4 w.scratch1 false w.e4.gdt (w.e4.gdOff g)) >>= fun _ =>
        adjustFreeBlocks g delta) >>= fun _ => Cmd.ignore (e4SyncGd g) >>= fun _ =>
        Cmd.get >>= fun v => e4WriteBlock (w.e4.bitmapBlock false g) v.scratch1) w := rfl
  rw [hsplit, Cmd.bind_some hadjust, Cmd.ignore_bind, Cmd.get_bind]
  generalize (e4SyncGd g w1).2 = w2 at k2 he2 hbuf hios2 hsame ⊢
  have hkept : Kept w w2 := k1.trans k2
  obtain ⟨w', hwrite, wrote⟩ := (hkept.mounted m).wrote (b := w.e4.bitmapBlock false g)
    (by rw [he2]; subst hw1 he1; exact bitmapInside) w2.scratch1
  have hsize : w2.e4.blockSize = w.e4.blockSize := hkept.blockSize
  have hsize1 : w1.e4.blockSize = w.e4.blockSize := k1.blockSize
  have hbm : w2.scratch1 = bm := by
    rw [hbuf, ← hw1]
  have hios : w2.bus.ios = w.bus.ios + w.syncIos w.bus.ios g := by
    rw [hios2, hios1, World.syncIos, World.syncIos, k1.succeeds, hblock1]
  have hdisk2 : ∀ c, c ≠ w.e4.descBlock g → ∀ k, k < w.e4.blockSize →
      w2.disk d (c * w.e4.blockSize + k) = w.disk d (c * w.e4.blockSize + k) := by
    intro c hne k hk
    have hold := hsame c (by rw [hblock1]; exact hne) k (by rw [hsize1]; exact hk)
    rwa [hsize1, hdisk1] at hold
  rw [hkept.succeeds, hios] at hwrite
  rw [hkept.movedOctets, hios, hbm] at wrote
  refine ⟨w', hwrite, hkept.trans wrote.kept, ?_, ?_, ?_⟩
  · rw [wrote.e4, he2]
    subst hw1 he1
    rfl
  · intro k hk
    have hnow := wrote.block k (by rw [hsize]; exact hk)
    rwa [hsize, hdisk2 _ apart k hk] at hnow
  · intro c hbitmap hdesc k hk
    have hnow := wrote.other c hbitmap k (by rw [hsize]; exact hk)
    rwa [hsize, hdisk2 c hdesc k hk] at hnow

theorem BlockMaps.settle (m : BlockMaps w d) (hg : g < w.e4.groupCount) (bm : Bytes) (delta : Int) :
    ∃ w', settle g (w.e4.bitmapBlock false g) bm delta w =
        (if w.succeeds (w.bus.ios + w.syncIos w.bus.ios g) (w.e4.bitmapBlock false g) then some
          () else none, w') ∧
      SettledTo w w' d g bm delta (w.settledOctets w.bus.ios g) :=
  m.mounted.settle hg (m.bitmapInside hg) (m.descInside hg) (m.descApart g g hg hg) bm delta

theorem Transfers.settledOctets (t : Transfers w d) (n g : Nat) :
    w.settledOctets n g = w.e4.blockSize :=
  t.movedOctets _ _

variable {delta : Int} {v : Bool} {e4 : Ext4Fs}

theorem SettledTo.whole (s : SettledTo w w' d g bm delta w.e4.blockSize) :
    Settled w w' d g bm delta := by
  refine ⟨s.kept, s.e4, fun k hk => ?_, s.other⟩
  rw [s.bitmap k hk, if_pos hk]

theorem Consistent.settle (c : Consistent w d) (hg : g < w.e4.groupCount) (bm : Bytes)
    (delta : Int) :
    ∃ w', settle g (w.e4.bitmapBlock false g) bm delta w = (some (), w') ∧
    Settled w w' d g bm delta := by
  obtain ⟨w', hsettle, s⟩ := c.maps.settle hg bm delta
  rw [c.transfers.succeeds, if_pos rfl] at hsettle
  rw [c.transfers.settledOctets] at s
  exact ⟨w', hsettle, s.whole⟩

theorem Settled.upTo (s : Settled w w' d g bm delta) :
    SettledTo w w' d g bm delta w.e4.blockSize := by
  refine ⟨s.kept, s.e4, fun k hk => ?_, s.other⟩
  rw [s.bitmap k hk, if_pos hk]

theorem recount_sameLayout (desc : e4.DescOk) (bm : Bytes) (g : Nat) (delta : Int) :
    SameLayout e4 (e4.recount bm g delta) :=
  ⟨rfl, rfl, recount_bitmapBlock desc bm g delta, fun _ => rfl, fun _ => rfl⟩

/-! ## One bit changed -/

/-- Settling a bitmap that differs in one bit changes that bit if its octet reaches the disk. -/
theorem SettledTo.used (m : BlockMaps w d) (hg : g < w.e4.groupCount)
    (s : SettledTo w w' d g bm delta n) (hi : i < 8 * w.e4.blockSize)
    (bits : ∀ j, j < 8 * w.e4.blockSize → bitAt bm j = if j = i then v else w.used d g j) :
    w'.used d = SlotMap.mark (w.used d) g i (if i / 8 < n then v else w.used d g i) := by
  have layout := recount_sameLayout m.geometry.desc bm g delta
  rw [← s.e4] at layout
  funext h j
  by_cases hin : h < w.e4.groupCount ∧ j < 8 * w.e4.blockSize
  · obtain ⟨hh, hj⟩ := hin
    have hj8 : j / 8 < w.e4.blockSize := by omega
    rw [used_eq (by rw [layout.groupCount]; exact hh) (by rw [layout.blockSize]; exact hj),
      layout.blockSize, layout.bitmapBlock]
    by_cases hgroup : h = g
    · subst hgroup
      have hoctet : blockAt (w'.disk d) w.e4.blockSize (w.e4.bitmapBlock false h) (j / 8) =
          if j / 8 < n then bm (j / 8)
          else blockAt (w.disk d) w.e4.blockSize (w.e4.bitmapBlock false h) (j / 8) :=
            s.bitmap _ hj8
      have hbit : bitAt (blockAt (w'.disk d) w.e4.blockSize (w.e4.bitmapBlock false h)) j =
          if j / 8 < n then bitAt bm j else w.used d h j := by
        by_cases stored : j / 8 < n
        · rw [if_pos stored] at hoctet ⊢
          exact bitAt_congr hoctet
        · rw [if_neg stored] at hoctet ⊢
          rw [bitAt_congr hoctet, used_eq hh hj]
      rw [hbit, bits j hj]
      by_cases hij : j = i
      · rw [if_pos hij, hij, SlotMap.mark_same]
      · rw [if_neg hij, ite_self, SlotMap.mark_other _ _ (fun both => hij both.2)]
    · have hoctet : blockAt (w'.disk d) w.e4.blockSize (w.e4.bitmapBlock false h) (j / 8) =
          blockAt (w.disk d) w.e4.blockSize (w.e4.bitmapBlock false h) (j / 8) :=
        s.other _ (m.bitmapsApart h g hh hg hgroup) (m.descApart h g hh hg) _ hj8
      rw [bitAt_congr hoctet, SlotMap.mark_other _ _ (fun both => hgroup both.1), used_eq hh hj]
  · have hne : ¬ (h = g ∧ j = i) := by
      rintro ⟨rfl, rfl⟩
      exact hin ⟨hg, hi⟩
    rw [SlotMap.mark_other _ _ hne]
    unfold World.used
    rw [layout.groupCount, layout.blockSize, decide_eq_false hin, Bool.false_and, Bool.false_and]

/-- The state after one bit was set to `v`. -/
structure Altered (w w' : World) (d g i : Nat) (v : Bool) : Prop where
  kept : Kept w w'
  layout : SameLayout w.e4 w'.e4
  mapped : BlockMaps w' d
  used : w'.used d = SlotMap.mark (w.used d) g i v

theorem Quiet.altered (q : Quiet w w') (a : Altered w' w'' d g i v) : Altered w w'' d g i v := by
  constructor
  · exact q.kept.trans a.kept
  · rw [← q.e4]
    exact a.layout
  · exact a.mapped
  · rw [a.used, q.used]

/-- A bit may be changed as long as no block of a bitmap or descriptor loses its own. -/
theorem SettledTo.altered (m : BlockMaps w d) (hg : g < w.e4.groupCount)
    (s : SettledTo w w' d g bm delta n) (hi : i < w.e4.lastBits g)
    (bits : ∀ j, j < 8 * w.e4.blockSize → bitAt bm j = if j = i then v else w.used d g j)
    (safe : v = true ∨ ¬ w.e4.Reserved (blkOf w.e4 g i)) :
    Altered w w' d g i (if i / 8 < n then v else w.used d g i) := by
  have geo := m.geometry
  have hbits : i < 8 * w.e4.blockSize :=
    Nat.lt_of_lt_of_le hi (Nat.le_trans (geo.lastBits_le g) geo.groupBits)
  have layout := recount_sameLayout geo.desc bm g delta
  rw [← s.e4] at layout
  have hused := s.used m hg hbits bits
  refine ⟨s.kept, layout, m.carry s.kept layout ?_, hused⟩
  intro b reserved
  obtain ⟨hgroup, hindex⟩ := s.kept.sameSlots b
  have hold := m.reservedUsed b reserved
  unfold World.blockUsed at hold ⊢
  rw [hgroup, hindex, hused]
  by_cases same : w.e4.groupOf b = g ∧ w.e4.indexOf b = i
  · obtain ⟨hlo, hhi⟩ := m.reservedInside b reserved
    obtain ⟨-, -, hblk⟩ := geo.slot_of_block hlo hhi
    rw [same.1, same.2] at hblk hold ⊢
    have hv : v = true := safe.resolve_right fun unreserved => unreserved (hblk ▸ reserved)
    rw [SlotMap.mark_same, hv, hold, ite_self]
  · rw [SlotMap.mark_other _ _ same, hold]

theorem Geometry.clearCount_small (geo : Geometry e4) (s : Nat → Bool) (g : Nat) :
    SlotMap.clearCount s (e4.lastBits g) < 65536 := by
  have hcount := SlotMap.clearCount_le s (e4.lastBits g)
  have hbits := geo.lastBits_le g
  have hsmall := geo.groupSmall
  omega

theorem Geometry.totalClear_small (geo : Geometry e4) (t : SlotMap.Taken) :
    SlotMap.totalClear t e4.lastBits e4.groupCount < 9223372036854775808 := by
  have hgroups := geo.groupsSmall
  have hle : SlotMap.totalClear t e4.lastBits e4.groupCount ≤ e4.groupCount * 65528 := by
    apply SlotMap.totalClear_le
    intro g _
    exact Nat.le_trans (geo.lastBits_le g) geo.groupSmall
  omega

/-- The counters follow when they move by what the number of clear bits moves by. -/
theorem Consistent.recounted (c : Consistent w d) (hg : g < w.e4.groupCount)
    (he4 : w'.e4 = w.e4.recount bm g delta) (hused : w'.used d = SlotMap.mark (w.used d) g i v)
    (one : (SlotMap.clearCount (w.used d g) (w.e4.lastBits g) : Int) + delta =
      SlotMap.clearCount (w'.used d g) (w.e4.lastBits g))
    (all : (SlotMap.totalClear (w.used d) w.e4.lastBits w.e4.groupCount : Int) + delta =
      SlotMap.totalClear (w'.used d) w.e4.lastBits w.e4.groupCount) :
    Counted w' d := by
  have desc := c.geometry.desc
  constructor
  · intro h hh
    rw [he4] at hh ⊢
    by_cases same : h = g
    · subst same
      exact recount_freeBlocks desc bm delta (c.counted.group h hg) one
        (c.geometry.clearCount_small _ h) (c.geometry.clearCount_small _ h)
    · rw [recount_freeBlocks_other desc bm delta same, c.counted.group h hh]
      apply SlotMap.clearCount_congr
      intro j _
      rw [hused, SlotMap.mark_other _ _ (fun both => same both.1)]
  · rw [he4]
    exact recount_freeTotal bm g delta c.counted.total all (c.geometry.totalClear_small _)

/-- The state after a block was taken or freed. -/
structure Marked (w w' : World) (d g i : Nat) (v : Bool) : Prop where
  kept : Kept w w'
  layout : SameLayout w.e4 w'.e4
  consistent : Consistent w' d
  used : w'.used d = SlotMap.mark (w.used d) g i v

theorem Altered.taken (c : Consistent w d) (hg : g < w.e4.groupCount) (hi : i < w.e4.lastBits g)
    (clear : w.used d g i = false) (a : Altered w w' d g i true)
    (he4 : w'.e4 = w.e4.recount bm g (-1)) :
    Marked w w' d g i true := by
  obtain ⟨hone, hall⟩ := SlotMap.counts_mark hg hi clear
  rw [← a.used] at hone hall
  have counted := c.recounted hg he4 a.used (by omega) (by omega)
  exact ⟨a.kept, a.layout, a.mapped.consistent (c.transfers.kept a.kept) counted, a.used⟩

theorem Altered.freed (c : Consistent w d) (hg : g < w.e4.groupCount) (hi : i < w.e4.lastBits g)
    (taken : w.used d g i = true) (a : Altered w w' d g i false)
    (he4 : w'.e4 = w.e4.recount bm g 1) :
    Marked w w' d g i false := by
  obtain ⟨hone, hall⟩ := SlotMap.counts_clear hg hi taken
  rw [← a.used] at hone hall
  have counted := c.recounted hg he4 a.used (by omega) (by omega)
  exact ⟨a.kept, a.layout, a.mapped.consistent (c.transfers.kept a.kept) counted, a.used⟩

/-! ## Taking a block -/

/-- The bit of a block that is taken is set if its octet reaches the disk, whatever becomes
of the descriptor and of the block itself. -/
theorem BlockMaps.takeBlock (m : BlockMaps w d) (hg : g < w.e4.groupCount)
    (hi : i < w.e4.lastBits g) (clear : w.used d g i = false) (loaded : Loaded w d g w.scratch1) :
    ∃ w', takeBlock g (w.e4.bitmapBlock false g) i w = (some (), w') ∧
      Altered w w' d g i (decide (i / 8 < w.settledOctets w.bus.ios g)) ∧
      w'.e4 = w.e4.recount (setBit w.scratch1 i) g (-1) := by
  have geo := m.geometry
  obtain ⟨w1, hsettle, settled⟩ := m.settle hg (setBit w.scratch1 i) (-1)
  have altered := settled.altered m hg hi (fun j hj => loaded.bit_set hg i hj) (Or.inl rfl)
  have hbit : (if i / 8 < w.settledOctets w.bus.ios g then true else w.used d g i) =
      decide (i / 8 < w.settledOctets w.bus.ios g) := by
    by_cases stored : i / 8 < w.settledOctets w.bus.ios g
    · rw [if_pos stored, decide_eq_true stored]
    · rw [if_neg stored, decide_eq_false stored, clear]
  rw [hbit] at altered
  generalize hw2 : { w1 with scratch2 := fill w1.scratch2 0 w1.e4.blockSize 0 } = w2
  have q2 : Quiet w1 w2 := by
    subst hw2
    exact ⟨rfl, rfl, rfl, rfl⟩
  have hset : setScratch2 (fill w1.scratch2 0 w1.e4.blockSize 0) w1 = (some (), w2) := by
    rw [← hw2]
    rfl
  have hblk : blkOf w2.e4 g i = blkOf w.e4 g i := by
    rw [q2.e4, altered.kept.e4]
    rfl
  have hinside : blkOf w.e4 g i < w2.e4.blocksCount := by
    rw [q2.e4, altered.kept.e4]
    exact (geo.blkOf_eq hg hi).2
  have m2 := q2.mapped altered.mapped
  obtain ⟨w', hwrite, wrote⟩ := m2.mounted.wrote hinside w2.scratch2
  -- The block taken was clear before, so it is not a bitmap.
  have hapart : ∀ h, h < w2.e4.groupCount → w2.e4.bitmapBlock false h ≠ blkOf w.e4 g i := by
    have hslots := geo.slot_of_blkOf hg hi
    have hclear : w.blockUsed d (blkOf w.e4 g i) = false := by
      unfold World.blockUsed
      rw [hslots.1, hslots.2]
      exact clear
    intro h hh
    rw [q2.e4, altered.layout.bitmapBlock]
    rw [q2.e4, altered.layout.groupCount] at hh
    exact m.clear_apart hclear h hh
  have hused := used_unwritten wrote.e4 wrote.other hapart
  have hlayout : SameLayout w.e4 w'.e4 := by
    rw [wrote.e4, q2.e4]
    exact altered.layout
  refine ⟨w', ?_, ⟨(altered.kept.trans q2.kept).trans wrote.kept, hlayout,
    m2.same wrote.kept wrote.e4 hused, ?_⟩, ?_⟩
  · rw [takeBlock_settle, Cmd.ignore_bind, hsettle, Cmd.get_bind, Cmd.bind_some hset, Cmd.get_bind,
      Cmd.ignore_apply, hblk, hwrite]
  · rw [hused, q2.used, altered.used]
  · rw [wrote.e4, q2.e4, settled.e4]

theorem Consistent.takeBlock (c : Consistent w d) (hg : g < w.e4.groupCount)
    (hi : i < w.e4.lastBits g) (clear : w.used d g i = false) (loaded : Loaded w d g w.scratch1) :
    ∃ w', takeBlock g (w.e4.bitmapBlock false g) i w = (some (), w') ∧ Marked w w' d g i true := by
  have hle := c.geometry.lastBits_le g
  have hbits := c.geometry.groupBits
  obtain ⟨w', htake, altered, he4⟩ := c.maps.takeBlock hg hi clear loaded
  rw [c.transfers.settledOctets, decide_eq_true (by omega)] at altered
  exact ⟨w', htake, altered.taken c hg hi clear he4⟩

theorem Quiet.marked (q : Quiet w w') (m : Marked w' w'' d g i v) : Marked w w'' d g i v := by
  constructor
  · exact q.kept.trans m.kept
  · rw [← q.e4]
    exact m.layout
  · exact m.consistent
  · rw [m.used, q.used]

/-- The group visited in round `gi`. -/
def visit (hint groups gi : Nat) : Nat := u32 (hint + gi) % groups

/-- The groups in the order in which `e4_alloc_block_near` visits them. -/
def visitOrder (hint groups : Nat) : List Nat := (List.range groups).map (visit hint groups)

/-- The slot that the allocator takes. -/
def World.choice (w : World) (d hint : Nat) : Option (Nat × Nat) :=
  SlotMap.pick (visitOrder hint w.e4.groupCount) w.e4.lastBits (w.used d)

/-- How `e4_alloc_block_near` ends when `picked` is the slot to take. -/
def AllocEnds (w : World) (d : Nat) (r : Option Nat × World) : Option (Nat × Nat) → Prop
  | some (g, i) => r.1 = some (blkOf w.e4 g i) ∧ Marked w r.2 d g i true
  | none => r.1 = none ∧ Quiet w r.2

/-- The slot that the rounds from `gi` on find, the first of them reading its bitmap with
transfer `n`, and the number of the transfer after that read. -/
def World.finds (w : World) (d hint : Nat) : Nat → Nat → Nat → Option (Nat × Nat × Nat)
  | 0, _, _ => none
  | more + 1, gi, n =>
    let g := visit hint w.e4.groupCount gi
    if w.succeeds n (w.e4.bitmapBlock false g) then
      match SlotMap.firstClear (w.used d g) (w.e4.lastBits g) with
      | some i => some (n + 1, g, i)
      | none => w.finds d hint more (gi + 1) (n + 1)
    else w.finds d hint more (gi + 1) (n + 1)

theorem Quiet.finds (q : Quiet w w') (hint more gi n : Nat) :
    w'.finds d hint more gi n = w.finds d hint more gi n := by
  induction more generalizing gi n with
  | zero => rfl
  | succ more ih =>
    simp only [World.finds, q.e4, q.used, q.kept.succeeds, ih]

theorem Transfers.finds (t : Transfers w d) (hint more gi n : Nat) :
    (w.finds d hint more gi n).map Prod.snd =
      SlotMap.pick ((List.range' gi more).map (visit hint w.e4.groupCount)) w.e4.lastBits
      (w.used d) := by
  induction more generalizing gi n with
  | zero => rfl
  | succ more ih =>
    rw [List.range'_succ, List.map_cons, World.finds, t.succeeds]
    cases hfirst : SlotMap.firstClear (w.used d (visit hint w.e4.groupCount gi))
        (w.e4.lastBits (visit hint w.e4.groupCount gi)) with
    | none =>
      rw [SlotMap.pick_cons_none hfirst]
      exact ih (gi + 1) (n + 1)
    | some i =>
      rw [SlotMap.pick_cons_some hfirst]
      rfl

/-- How the rounds of `e4_alloc_block_near` end: the slot found is taken, with its bitmap in the
first buffer, or only buffers differ. -/
def SearchEnds (w : World) (d : Nat) (r : Option Nat × World) : Option (Nat × Nat × Nat) → Prop
  | some (n, g, i) => (g < w.e4.groupCount ∧ i < w.e4.lastBits g ∧ w.used d g i = false) ∧
      ∃ w1, Quiet w w1 ∧ w1.bus.ios = n ∧ Loaded w d g w1.scratch1 ∧
        r = (takeBlock g (w.e4.bitmapBlock false g) i >>= fun _ => pure (blkOf w.e4 g i)) w1
  | none => r.1 = none ∧ Quiet w r.2

theorem Quiet.searchEnds {r : Option Nat × World} {found : Option (Nat × Nat × Nat)}
    (q : Quiet w w') (ends : SearchEnds w' d r found) :
    SearchEnds w d r found := by
  cases found with
  | none => exact ⟨ends.1, q.trans ends.2⟩
  | some slot =>
    obtain ⟨valid, w1, q1, hios, loaded, hr⟩ := ends
    unfold Loaded at loaded
    rw [q.e4, q.used] at valid
    rw [q.e4, q.disk] at loaded
    rw [q.e4] at hr
    exact ⟨valid, w1, q.trans q1, hios, loaded, hr⟩

theorem BlockMaps.search (m : BlockMaps w d) (hint more gi : Nat) :
    SearchEnds w d (allocFrom hint more gi w) (w.finds d hint more gi w.bus.ios) := by
  induction more generalizing gi w with
  | zero => exact ⟨rfl, Quiet.refl w⟩
  | succ more ih =>
    have geo := m.geometry
    have hg : visit hint w.e4.groupCount gi < w.e4.groupCount := Nat.mod_lt _ geo.groups_pos
    obtain ⟨w1, hload, q1, hios, hloaded⟩ := m.loadBitmap hg
    have next := q1.searchEnds (ih (q1.mapped m) (gi + 1))
    rw [q1.finds, hios] at next
    unfold Fs.allocFrom World.finds
    rw [Cmd.get_bind, Cmd.attempt_bind]
    rw [show u32 (hint + gi) % w.e4.groupCount = visit hint w.e4.groupCount gi from rfl, hload]
    by_cases done : w.succeeds w.bus.ios (w.e4.bitmapBlock false (visit hint w.e4.groupCount gi)) =
      true
    · rw [if_pos done, if_pos done]
      have loaded := hloaded done
      have hbits := geo.lastBits_le (visit hint w.e4.groupCount gi)
      have hsmall := geo.groupSmall
      have hscan : findClear w1.scratch1 (w1.e4.lastBits (visit hint w.e4.groupCount gi)) =
          SlotMap.firstClear (w.used d (visit hint w.e4.groupCount gi))
            (w.e4.lastBits (visit hint w.e4.groupCount gi)) := by
        rw [q1.e4, findClear_eq (by omega)]
        apply SlotMap.firstClear_congr
        intro i hi
        have hoctets := geo.groupBits
        exact loaded.bit hg (by omega)
      show SearchEnds w d ((Cmd.get >>= fun w => _) w1) _
      rw [Cmd.get_bind, hscan]
      cases hfirst : SlotMap.firstClear (w.used d (visit hint w.e4.groupCount gi))
          (w.e4.lastBits (visit hint w.e4.groupCount gi)) with
      | none => exact next
      | some i =>
        obtain ⟨hi, hclear, _⟩ := SlotMap.firstClear_some hfirst
        refine ⟨⟨hg, hi, hclear⟩, w1, q1, hios, loaded, ?_⟩
        rw [← q1.e4]
    · rw [if_neg done, if_neg done]
      exact next

theorem BlockMaps.search_all (m : BlockMaps w d) (hint : Nat) :
    SearchEnds w d (e4AllocBlockNear hint w) (w.finds d hint w.e4.groupCount 0 w.bus.ios) := by
  have hwritable : w.e4.writable = true := m.mounted.writable
  unfold e4AllocBlockNear
  rw [Cmd.get_bind, if_neg (by rw [hwritable]; simp)]
  exact m.search hint w.e4.groupCount 0

theorem Consistent.alloc (c : Consistent w d) (hint : Nat) :
    AllocEnds w d (e4AllocBlockNear hint w) (w.choice d hint) := by
  have ends := c.maps.search_all hint
  unfold World.choice visitOrder
  rw [List.range_eq_range', ← c.transfers.finds hint w.e4.groupCount 0 w.bus.ios]
  cases hfound : w.finds d hint w.e4.groupCount 0 w.bus.ios with
  | none =>
    rw [hfound] at ends
    exact ends
  | some slot =>
    rw [hfound] at ends
    obtain ⟨⟨hg, hi, hclear⟩, w1, q1, -, loaded, hr⟩ := ends
    obtain ⟨w', htake, marked⟩ := (q1.consistent c).takeBlock (by rw [q1.e4]; exact hg)
      (by rw [q1.e4]; exact hi)
      (by rw [q1.used]; exact hclear) (q1.loaded loaded)
    rw [q1.e4] at htake
    rw [hr, Cmd.bind_some htake]
    exact ⟨rfl, q1.marked marked⟩

/-! ## Freeing a block -/

/-- Blocks that `e4_free_block` turns down. -/
def World.rejects (w : World) (d b : Nat) : Prop :=
  b < w.e4.firstDataBlock ∨ w.e4.blocksCount ≤ b ∨ w.blockUsed d b = false

theorem BlockMaps.free_inside (m : BlockMaps w d) (hlo : w.e4.firstDataBlock ≤ b)
    (hhi : b < w.e4.blocksCount) :
    ∃ w1, Quiet w w1 ∧
      if w.succeeds w.bus.ios (w.e4.bitmapBlock false (w.e4.groupOf b)) then
        Loaded w d (w.e4.groupOf b) w1.scratch1 ∧
          e4FreeBlock b w = if w.blockUsed d b = false then (none, w1) else
            Fs.settle (w.e4.groupOf b) (w.e4.bitmapBlock false (w.e4.groupOf b))
              (clearBit w1.scratch1 (w.e4.indexOf b)) 1 w1
      else e4FreeBlock b w = (none, w1) := by
  have geo := m.geometry
  have hsmall := geo.groupsSmall
  have hoctets := geo.groupBits
  have hbits := geo.groupSmall
  obtain ⟨hg, hi, _⟩ := geo.slot_of_block hlo hhi
  have hle := geo.lastBits_le (w.e4.groupOf b)
  obtain ⟨w1, hload, q1, -, hloaded⟩ := m.loadBitmap hg
  have hgroup : u32 ((b - w.e4.firstDataBlock) / w.e4.blocksPerGroup) = w.e4.groupOf b :=
    u32_of_lt (Nat.lt_trans hg hsmall)
  have hindex : u32 ((b - w.e4.firstDataBlock) % w.e4.blocksPerGroup) = w.e4.indexOf b := by
    apply u32_of_lt
    show w.e4.indexOf b < _
    omega
  have hwritable : w.e4.writable = true := m.mounted.writable
  have hgo : ¬ (w.e4.writable = false ∨ b < w.e4.firstDataBlock ∨ w.e4.blocksCount ≤ b) := by
    rw [hwritable]
    simp only [Bool.true_eq_false, false_or]
    omega
  refine ⟨w1, q1, ?_⟩
  unfold e4FreeBlock
  rw [Cmd.get_bind, if_neg hgo]
  simp only [hgroup, hindex]
  by_cases done : w.succeeds w.bus.ios (w.e4.bitmapBlock false (w.e4.groupOf b)) = true
  · have loaded := hloaded done
    have hbit : bitAt w1.scratch1 (w.e4.indexOf b) = w.blockUsed d b := loaded.bit hg (by omega)
    rw [if_pos done] at hload ⊢
    refine ⟨loaded, ?_⟩
    rw [Cmd.bind_some hload, Cmd.get_bind, hbit]
    split
    · rfl
    · rfl
  · rw [if_neg done] at hload ⊢
    exact Cmd.bind_none hload

section
variable (c : Consistent w d)
include c

theorem Consistent.free_inside (hlo : w.e4.firstDataBlock ≤ b) (hhi : b < w.e4.blocksCount) :
    ∃ w1, Quiet w w1 ∧ Loaded w d (w.e4.groupOf b) w1.scratch1 ∧
      e4FreeBlock b w = if w.blockUsed d b = false then (none, w1) else
        Fs.settle (w.e4.groupOf b) (w.e4.bitmapBlock false (w.e4.groupOf b))
          (clearBit w1.scratch1 (w.e4.indexOf b)) 1 w1 := by
  obtain ⟨w1, q1, hfree⟩ := c.maps.free_inside hlo hhi
  rw [c.transfers.succeeds] at hfree
  exact ⟨w1, q1, hfree⟩

theorem Consistent.free_rejected (rejected : w.rejects d b) :
    (e4FreeBlock b w).1 = none ∧ Quiet w (e4FreeBlock b w).2 := by
  by_cases outside : b < w.e4.firstDataBlock ∨ w.e4.blocksCount ≤ b
  · unfold e4FreeBlock
    rw [Cmd.get_bind, if_pos (Or.inr outside)]
    exact ⟨rfl, Quiet.refl w⟩
  · have hclear : w.blockUsed d b = false := by
      rcases rejected with below | above | clear
      · exact absurd (Or.inl below) outside
      · exact absurd (Or.inr above) outside
      · exact clear
    obtain ⟨w1, q1, _, hfree⟩ := c.free_inside (b := b) (by omega) (by omega)
    rw [hfree, if_pos hclear]
    exact ⟨rfl, q1⟩

theorem Consistent.free_accepted (accepted : ¬ w.rejects d b) (unreserved : ¬ w.e4.Reserved b) :
    (e4FreeBlock b w).1 = some () ∧ Marked w (e4FreeBlock b w).2 d (w.e4.groupOf b)
    (w.e4.indexOf b) false := by
  have geo := c.geometry
  unfold World.rejects at accepted
  simp only [not_or, Nat.not_lt, Nat.not_le, Bool.not_eq_false] at accepted
  obtain ⟨hlo, hhi, htaken⟩ := accepted
  obtain ⟨hg, hi, hblk⟩ := geo.slot_of_block hlo hhi
  obtain ⟨w1, q1, loaded, hfree⟩ := c.free_inside hlo hhi
  have c1 := q1.consistent c
  have hg1 : w.e4.groupOf b < w1.e4.groupCount := by
    rw [q1.e4]
    exact hg
  have hi1 : w.e4.indexOf b < w1.e4.lastBits (w.e4.groupOf b) := by
    rw [q1.e4]
    exact hi
  have hle := c1.geometry.lastBits_le (w.e4.groupOf b)
  have hbits := c1.geometry.groupBits
  obtain ⟨w', hsettle, s⟩ := c1.settle hg1 (clearBit w1.scratch1 (w.e4.indexOf b)) 1
  have altered := s.upTo.altered c1.maps hg1 hi1 (fun j hj => (q1.loaded loaded).bit_clear hg1 _ hj)
    (Or.inr (by rw [q1.e4, hblk]; exact unreserved))
  rw [if_pos (by omega)] at altered
  have hstate : e4FreeBlock b w = (some (), w') := by
    rw [hfree, if_neg (by rw [htaken]; simp)]
    rw [q1.e4] at hsettle
    exact hsettle
  rw [hstate]
  exact ⟨rfl, q1.marked (altered.freed c1 hg1 hi1 (by rw [q1.used]; exact htaken) s.e4)⟩

/-- The return code alone says whether the block was turned down, reserved or not. -/
theorem Consistent.free_none_iff : (e4FreeBlock b w).1 = none ↔ w.rejects d b := by
  constructor
  · intro returned
    by_cases outside : b < w.e4.firstDataBlock ∨ w.e4.blocksCount ≤ b
    · rcases outside with below | above
      · exact Or.inl below
      · exact Or.inr (Or.inl above)
    · simp only [not_or, Nat.not_lt, Nat.not_le] at outside
      obtain ⟨w1, q1, _, hfree⟩ := c.free_inside outside.1 outside.2
      obtain ⟨hg, _, _⟩ := c.geometry.slot_of_block outside.1 outside.2
      by_cases clear : w.blockUsed d b = false
      · exact Or.inr (Or.inr clear)
      · obtain ⟨w', hsettle, _⟩ := (q1.consistent c).settle (g := w.e4.groupOf b)
          (by rw [q1.e4]; exact hg) (clearBit w1.scratch1 (w.e4.indexOf b)) 1
        rw [q1.e4] at hsettle
        rw [hfree, if_neg clear, hsettle] at returned
        cases returned
  · intro rejected
    exact (c.free_rejected rejected).1

end

end Obsidian.Fs
