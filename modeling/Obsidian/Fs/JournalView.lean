import Obsidian.Fs.ExtentRead
import Obsidian.Fs.PowerCut

/-!
# The journal as the driver reads it

What `e4_read_inode`, `e4_bmap` and `jread` return is a function of the octets on the
disk and of what does not change while the filesystem is mounted. The functions are
stated here for any octets, so that one reading can be compared with another.
-/
namespace Obsidian.Fs
open Lib Lib.Bytes Lib.Redo Drivers

/-! ## What reading depends on -/

/-- Same mount on the same device, whatever the medium holds; the buffers agree past the
octets a transfer overwrites. -/
structure Static (w v : World) : Prop where
  e4 : v.e4 = w.e4
  devs : ∀ d, v.bus.devs d = { w.bus.devs d with data := (v.bus.devs d).data }
  first : ∀ i, w.e4.blockSize ≤ i → v.scratch1 i = w.scratch1 i
  second : ∀ i, w.e4.blockSize ≤ i → v.scratch2 i = w.scratch2 i
  junk : v.stackJunk = w.stackJunk

/-- And the same transfers fail. -/
structure View (w v : World) : Prop extends Static w v where
  fault : v.bus.fault = w.bus.fault

variable {w v u : World} {d : Nat}

theorem View.trans (h : View w v) (k : View v u) : View w u := by
  refine ⟨⟨k.e4.trans h.e4, ?_, ?_, ?_, k.junk.trans h.junk⟩, k.fault.trans h.fault⟩
  · intro d
    rw [k.devs, h.devs]
  · intro i hi
    rw [k.first i (h.e4 ▸ hi), h.first i hi]
  · intro i hi
    rw [k.second i (h.e4 ▸ hi), h.second i hi]

theorem Like.view (like : Like w v) : View w v :=
  ⟨⟨like.e4, fun d => by rw [like.devs], like.first, like.second, like.junk⟩, like.fault⟩

theorem onDisk_view (w : World) (d : Nat) (data : Bytes) : View w (w.onDisk d data) :=
  ⟨⟨rfl, setData_kept w.bus d data, fun _ _ => rfl, fun _ _ => rfl, rfl⟩, rfl⟩

@[simp] theorem onDisk_disk (w : World) (d : Nat) (data : Bytes) :
    (w.onDisk d data).disk d = data := disk_setData _ _ _

@[simp] theorem onDisk_onDisk (w : World) (d : Nat) (data data' : Bytes) :
    (w.onDisk d data).onDisk d data' = w.onDisk d data' := by
  unfold World.onDisk
  rw [setData_setData]

theorem onDisk_self (w : World) (d : Nat) : w.onDisk d (w.disk d) = w := by
  unfold World.onDisk World.disk
  rw [setData_self]

theorem View.sound (view : View w v) (sound : Sound w d) : Sound v d := by
  obtain ⟨hdev, hcuts, hsectors, hsmall, hsize⟩ := sound
  rw [← view.e4] at hdev hsectors hsmall hsize
  rw [← view.fault] at hcuts
  exact ⟨hdev, hcuts, hsectors, hsmall, hsize⟩

section
variable (view : Static w v)
include view

theorem Static.lba (b : Nat) : v.lba b = w.lba b := by
  rw [World.lba, view.e4, World.lba]

theorem Static.reaches (d b : Nat) : v.reaches d b = w.reaches d b := by
  rw [World.reaches, view.devs, view.lba, view.e4]
  rfl

theorem Static.lands (d b : Nat) : v.lands d b = w.lands d b := by
  rw [World.lands, view.reaches, view.devs, view.e4]
  rfl

theorem Static.fetch (data buf : Bytes) (b : Nat) : v.fetch data buf b = w.fetch data buf b := by
  rw [World.fetch, view.lba, view.e4, World.fetch]

end

theorem fetch_tail (w : World) (data : Bytes) {buf buf' : Bytes} (b : Nat)
    (tail : ∀ i, w.e4.blockSize ≤ i → buf' i = buf i) :
    w.fetch data buf' b = w.fetch data buf b := by
  funext j
  unfold World.fetch copy
  split
  · rfl
  · exact tail j (by omega)

section
variable (view : Static w v)
include view

theorem Static.fetch_first (data : Bytes) (b : Nat) :
    v.fetch data v.scratch1 b = w.fetch data w.scratch1 b := by
  rw [view.fetch, fetch_tail w data b view.first]

theorem Static.fetch_second (data : Bytes) (b : Nat) :
    v.fetch data v.scratch2 b = w.fetch data w.scratch2 b := by
  rw [view.fetch, fetch_tail w data b view.second]

/-! ## The log -/

/-- The lookup gets down to the root through the index nodes it reads on the way. -/
def World.descends (w : World) (d : Nat) (data : Bytes) (logical : Nat) : Nat → Nat → Bool
  | 0, _ => true
  | depth + 1, node =>
    if w.reaches d node then
      let buf := w.fetch data w.scratch1 node
      match indexSearch buf 0 logical (Eh.entries buf 0) 0 none with
      | none => false
      | some chosen => w.descends d data logical depth (Ix.leaf buf (Eh.entry 0 chosen))
    else false

/-- `e4_bmap` as a function of the disk, for an inode with extents or one of its first
twelve blocks. -/
def World.mapsTo (w : World) (d : Nat) (data inode : Bytes) (i : Nat) : Option Nat :=
  if Ino.flags inode &&& inoFlagExtents ≠ 0 then
    if Eh.magic inode Ino.root = extentMagic ∧
        w.descends d data i (Eh.depth inode Ino.root) 0 then some (flatBlock inode i)
    else none
  else some (Ino.block inode i)

/-- `jread` as a function of the disk. -/
def World.log (w : World) (d : Nat) (data jin : Bytes) (i : Nat) : Option Bytes :=
  match w.mapsTo d data jin i with
  | none => none
  | some phys => if phys ≠ 0 ∧ w.reaches d phys then some (w.fetch data zero phys) else none

/-- `e4_read_inode` as a function of the disk. -/
def World.inodeOn (w : World) (d : Nat) (data : Bytes) (ino : Nat) (out : Bytes) : Option Bytes :=
  if w.e4.hasInode ino ∧ w.reaches d (w.e4.inodeBlk ino) then
    let buf := w.fetch data w.scratch1 (w.e4.inodeBlk ino)
    let off := w.e4.inodeOff ino
    if w.e4.inOneBlock ino then some (copy out 0 buf off w.e4.inodeSize)
    else if w.reaches d (u64 (w.e4.inodeBlk ino + 1)) then
      let next := w.fetch data w.scratch2 (u64 (w.e4.inodeBlk ino + 1))
      let part := w.e4.blockSize - off
      some (copy (copy out 0 buf off part) part next 0 (w.e4.inodeSize - part))
    else none
  else none

variable (d : Nat)

theorem Static.descends (data : Bytes) (logical depth node : Nat) :
    v.descends d data logical depth node = w.descends d data logical depth node := by
  induction depth generalizing node with
  | zero => rfl
  | succ depth ih =>
    simp only [World.descends, view.reaches, view.fetch_first, ih]

theorem Static.mapsTo (data inode : Bytes) (i : Nat) :
    v.mapsTo d data inode i = w.mapsTo d data inode i := by
  simp only [World.mapsTo, view.descends]

theorem Static.log (data jin : Bytes) : v.log d data jin = w.log d data jin := by
  funext i
  simp only [World.log, view.mapsTo, view.reaches, view.fetch]

theorem Static.inodeOn (data : Bytes) (ino : Nat) (out : Bytes) :
    v.inodeOn d data ino out = w.inodeOn d data ino out := by
  simp only [World.inodeOn, view.reaches, view.fetch_first, view.fetch_second, view.e4]

end

theorem mapsTo_small {data inode : Bytes} {i phys : Nat} (h : w.mapsTo d data inode i = some phys) :
    phys < 562949953421312 := by
  unfold World.mapsTo at h
  split at h
  · split at h
    · rw [← Option.some.inj h]
      exact flatBlock_small _ _
    · cases h
  · rw [← Option.some.inj h]
    exact Nat.lt_of_lt_of_le (get32_lt _ _) (by decide)

/-! ## Reads are functions of the disk -/

/-- A read whose result is known, in a state that is otherwise as before. -/
def Reads (d : Nat) {α : Type} (c : Cmd World α) (w : World) (result : Option α) : Prop :=
  Cmd.Ends (device d) (· = w.disk d) (fun r v => Like w v ∧ r = result) (c w)

theorem Sound.extentDescend (sound : Sound w d) (inode : Bytes) (logical depth node : Nat) :
    Reads d (extentDescend inode logical depth node) w
      (if w.descends d (w.disk d) logical depth node then some (flatBlock inode logical)
        else none) := by
  induction depth generalizing node w with
  | zero => exact Or.inl ⟨.refl w, rfl⟩
  | succ depth ih =>
    refine Cmd.Ends.bind (sound.readScratch1 node) ?_ ?_ ?_
    · intro _
      refine .get_bind fun s => ?_
      split
      · exact .fail
      · exact extentDescend_inert _ _ _ _
    · rintro t ⟨like, hnone, -⟩
      refine ⟨like, ?_⟩
      by_cases near : w.reaches d node
      · rw [if_pos near] at hnone
        cases hnone
      · simp [World.descends, near]
    · rintro done t ⟨like, hsome, hbuf⟩
      have near : w.reaches d node := by
        by_contra far
        rw [if_neg far] at hsome
        cases hsome
      rw [Cmd.get_bind, hbuf near]
      cases hfound : indexSearch (w.fetch (w.disk d) w.scratch1 node) 0 logical
          (Eh.entries (w.fetch (w.disk d) w.scratch1 node) 0) 0 none with
      | none =>
        simp only [World.descends, near, if_true, hfound]
        exact Or.inl ⟨like, rfl⟩
      | some chosen =>
        simp only [World.descends, near, if_true, hfound]
        refine (ih (like.sound sound) _).mono ?_ (fun m hm => hm.trans like.disk)
        rintro r u ⟨next, hr⟩
        rw [like.view.descends, like.disk] at hr
        exact ⟨like.trans next, hr⟩

theorem Sound.bmap (sound : Sound w d) (inode : Bytes) {i : Nat}
    (direct : Ino.flags inode &&& inoFlagExtents ≠ 0 ∨ i < 12) :
    Reads d (e4Bmap inode i) w (w.mapsTo d (w.disk d) inode i) := by
  unfold e4Bmap World.mapsTo
  by_cases extents : Ino.flags inode &&& inoFlagExtents ≠ 0
  · rw [if_pos extents, if_pos extents]
    unfold extentLookup
    by_cases magic : Eh.magic inode Ino.root = extentMagic
    · rw [if_neg (not_not.mpr magic)]
      simpa only [magic, true_and] using sound.extentDescend inode i (Eh.depth inode Ino.root) 0
    · rw [if_pos magic, if_neg (fun h => magic h.1)]
      exact Or.inl ⟨.refl w, rfl⟩
  · have low : i < 12 := direct.resolve_left extents
    rw [if_neg extents, if_neg extents]
    unfold indirectLookup Reads
    rw [Cmd.get_bind, if_pos low]
    exact Or.inl ⟨.refl w, rfl⟩

theorem Sound.jread (sound : Sound w d) (extents : Ino.flags w.jin &&& inoFlagExtents ≠ 0)
    (i : Nat) :
    Reads d (jread i) w (w.log d (w.disk d) w.jin i) := by
  unfold Reads Fs.jread World.log
  rw [Cmd.get_bind]
  refine Cmd.Ends.bind (sound.bmap w.jin (Or.inl extents)) ?_ ?_ ?_
  · exact fun _ => .ite .fail (readFresh_inert _)
  · rintro t ⟨like, hnone⟩
    exact ⟨like, by rw [← hnone]⟩
  · rintro phys t ⟨like, hsome⟩
    rw [← hsome]
    by_cases hole : phys = 0
    · rw [if_pos hole]
      exact Or.inl ⟨like, by simp [hole]⟩
    · rw [if_neg hole]
      refine ((like.sound sound).readFresh phys).mono ?_ (fun m hm => hm.trans like.disk)
      rintro r u ⟨next, hr⟩
      refine ⟨like.trans next, ?_⟩
      rw [hr, like.view.reaches, like.view.fetch, like.disk]
      simp [hole]

theorem Sound.readInode (sound : Sound w d) (ino : Nat) (out : Bytes) :
    Reads d (e4ReadInode ino out) w (w.inodeOn d (w.disk d) ino out) := by
  by_cases present : w.e4.hasInode ino
  · have hgo : ¬ (ino < 1 ∨ w.e4.inodesCount < ino) := by
      unfold Ext4Fs.hasInode at present
      omega
    unfold Reads e4ReadInode World.inodeOn
    rw [Cmd.get_bind, if_neg hgo]
    refine Cmd.Ends.bind (sound.readScratch1 (w.e4.inodeBlk ino)) ?_ ?_ ?_
    · exact fun _ => .ite (.get_bind fun _ => .pure _)
        (.bind (readScratch2_inert _) fun _ => .get_bind fun _ => .pure _)
    · rintro t ⟨like, hnone, -⟩
      refine ⟨like, ?_⟩
      by_cases near : w.reaches d (w.e4.inodeBlk ino)
      · rw [if_pos near] at hnone
        cases hnone
      · rw [if_neg (fun h => near h.2)]
    · rintro done t ⟨like, hsome, hbuf⟩
      have near : w.reaches d (w.e4.inodeBlk ino) := by
        by_contra far
        rw [if_neg far] at hsome
        cases hsome
      rw [if_pos ⟨present, near⟩]
      by_cases fits : w.e4.inOneBlock ino
      · rw [if_pos fits]
        show Cmd.Ends _ _ _ ((if w.e4.inOneBlock ino then _ else _ : Cmd World Bytes) t)
        rw [if_pos fits, Cmd.get_bind, hbuf near, like.e4]
        exact Or.inl ⟨like, rfl⟩
      · rw [if_neg fits]
        show Cmd.Ends _ _ _ ((if w.e4.inOneBlock ino then _ else _ : Cmd World Bytes) t)
        rw [if_neg fits]
        refine Cmd.Ends.bind (((like.sound sound).readScratch2 (u64 (w.e4.inodeBlk ino + 1))).mono
          (fun _ _ h => h) (fun m hm => hm.trans like.disk)) ?_ ?_ ?_
        · exact fun _ => .get_bind fun _ => .pure _
        · rintro s ⟨next, -, hnone, -⟩
          refine ⟨like.trans next, ?_⟩
          rw [like.view.reaches] at hnone
          by_cases near2 : w.reaches d (u64 (w.e4.inodeBlk ino + 1))
          · rw [if_pos near2] at hnone
            cases hnone
          · rw [if_neg near2]
        · rintro done2 s ⟨next, hfirst, hsome2, hbuf2⟩
          rw [like.view.reaches] at hsome2 hbuf2
          have near2 : w.reaches d (u64 (w.e4.inodeBlk ino + 1)) := by
            by_contra far
            rw [if_neg far] at hsome2
            cases hsome2
          have h2 : s.scratch2 = w.fetch (w.disk d) w.scratch2 (u64 (w.e4.inodeBlk ino + 1)) := by
            rw [hbuf2 near2, like.view.fetch_second, like.disk]
          rw [if_pos near2, Cmd.get_bind, hfirst, hbuf near, h2, (like.trans next).e4]
          exact Or.inl ⟨like.trans next, rfl⟩
  · rw [Reads, e4ReadInode_absent present]
    refine Or.inl ⟨.refl w, ?_⟩
    rw [World.inodeOn, if_neg (fun h => present h.1)]

end Obsidian.Fs
