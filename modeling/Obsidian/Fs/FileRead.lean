import Obsidian.Fs.DirEmpty
import Obsidian.Fs.FileApi

/-!
# Reading a file

`ext4_read` goes through the file in chunks that end at block boundaries or at the end of
what is wanted. The scratch buffer of the block is also the one that `e4_bmap` works in, so
that every chunk maps first and reads after it.
-/
namespace Obsidian.Fs
open Lib Lib.Bytes Drivers

variable {w t s : World} {d bs n : Nat} {inode : Bytes} {m : Nat → Nat}

/-! ## The mapping step -/

theorem extentDescend_quiet (inode : Bytes) (logical depth node : Nat) (w : World) :
    Quiet w (extentDescend inode logical depth node w).2 := by
  induction depth generalizing node w with
  | zero => exact Quiet.refl w
  | succ depth ih =>
    apply Quiet.bind (readScratch1_quiet node w)
    intro _ u
    rw [Cmd.get_bind]
    cases indexSearch u.scratch1 0 logical (Eh.entries u.scratch1 0) 0 none with
    | none => exact Quiet.refl u
    | some chosen => exact ih _ u

theorem indirectWalk_quiet (remaining bpp level ind : Nat) (w : World) :
    Quiet w (indirectWalk remaining bpp level ind w).2 := by
  induction level generalizing ind w with
  | zero => exact Quiet.refl w
  | succ level ih =>
    rw [indirectWalk]
    split
    · exact Quiet.refl w
    · exact Quiet.bind (readScratch1_quiet ind w) fun _ u => ih _ u

theorem e4Bmap_quiet (inode : Bytes) (lb : Nat) (w : World) : Quiet w (e4Bmap inode lb w).2 := by
  unfold e4Bmap extentLookup indirectLookup
  split
  · split
    · exact Quiet.refl w
    · exact extentDescend_quiet _ _ _ _ w
  · rw [Cmd.get_bind]
    split
    · exact Quiet.refl w
    · split
      · exact indirectWalk_quiet _ _ _ _ w
      · split
        · exact indirectWalk_quiet _ _ _ _ w
        · exact indirectWalk_quiet _ _ _ _ w

variable {v w : World}

theorem extentDescend_small (inode : Bytes) (logical depth node : Nat) {b : Nat}
    (found : extentDescend inode logical depth node w = (some b, v)) : b < 562949953421312 := by
  induction depth generalizing node w with
  | zero =>
    rw [← Option.some.inj (congrArg Prod.fst found)]
    exact leafSearch_small _ _ _ _ _
  | succ depth ih =>
    obtain ⟨_, u, -, found⟩ := Cmd.bind_eq_some found
    rw [Cmd.get_bind] at found
    cases search : indexSearch u.scratch1 0 logical (Eh.entries u.scratch1 0) 0 none with
    | none =>
      rw [search] at found
      cases found
    | some chosen =>
      rw [search] at found
      exact ih _ found

theorem indirectWalk_small (remaining bpp level ind : Nat) {b : Nat} (small : ind < 4294967296)
    (found : indirectWalk remaining bpp level ind w = (some b, v)) : b < 4294967296 := by
  induction level generalizing ind w with
  | zero =>
    rw [← Option.some.inj (congrArg Prod.fst found)]
    exact small
  | succ level ih =>
    rw [indirectWalk] at found
    split at found
    · rw [← Option.some.inj (congrArg Prod.fst found)]
      decide
    · obtain ⟨_, u, -, found⟩ := Cmd.bind_eq_some found
      exact ih _ (get32_lt _ _) found

theorem e4Bmap_small {inode : Bytes} {lb : Nat} {b : Nat} (found : (e4Bmap inode lb w).1 = some b) :
    b < 562949953421312 := by
  have pointer : ∀ v : Nat, v < 4294967296 → v < 562949953421312 :=
    fun v small => Nat.lt_trans small (by decide)
  cases run : e4Bmap inode lb w with
  | mk r v =>
    rw [run] at found
    subst found
    unfold e4Bmap extentLookup indirectLookup at run
    split at run
    · split at run
      · cases run
      · exact extentDescend_small _ _ _ _ run
    · rw [Cmd.get_bind] at run
      apply pointer
      split at run
      · rw [← Option.some.inj (congrArg Prod.fst run)]
        exact get32_lt _ _
      · split at run
        · exact indirectWalk_small _ _ _ _ (get32_lt _ _) run
        · split at run
          · exact indirectWalk_small _ _ _ _ (get32_lt _ _) run
          · exact indirectWalk_small _ _ _ _ (get32_lt _ _) run

/-! ## One chunk -/

theorem OnDevice.scratch1_of_read (on : OnDevice s d bs) (size : bs ∈ [1024, 2048, 4096, 8192])
    {b i : Nat} (small : b < 562949953421312) (read : (Fs.readScratch1 b s).1 = some ())
    (inside : i < bs) :
    (Fs.readScratch1 b s).2.scratch1 i = blockAt (s.disk d) bs b i := by
  have reads : readsBlock s.e4.sectorsPerBlock d s.bus b := by
    by_contra bad
    rw [on.readScratch1_fails size small bad] at read
    cases read
  rw [on.readScratch1 size small reads]
  exact agree_read _ _ _ _ i (Nat.zero_le i) inside

/-- The octets of a file whose block `lb` is at block `m lb` of the disk, or nowhere. -/
def fileOctet (disk : Bytes) (bs : Nat) (m : Nat → Nat) (i : Nat) : UInt8 :=
  if m (i / bs) = 0 then 0 else blockAt disk bs (m (i / bs)) (i % bs)

/-- `e4_bmap` finds the blocks of the first `n` octets where `m` has them and they can be
read, in every state that a read of the file may be in. -/
structure Readable (t : World) (inode : Bytes) (bs n : Nat) (m : Nat → Nat) : Prop where
  maps : ∀ lb s, lb * bs < n → Quiet t s → (e4Bmap inode lb s).1 = some (m lb)
  reads : ∀ lb s, lb * bs < n → m lb ≠ 0 → Quiet t s → (readScratch1 (m lb) s).1 = some ()

/-- The caller's buffer after `done` octets of the file. -/
structure Filled (disk : Bytes) (bs : Nat) (m : Nat → Nat) (before : Bytes) (done : Nat)
    (out : Bytes) : Prop where
  octets : ∀ i, i < done → out i = fileOctet disk bs m i
  rest : ∀ i, done ≤ i → out i = before i

theorem in_chunk {i done : Nat} (start : done ≤ i) (stop : i < done + (bs - done % bs)) :
    i / bs = done / bs ∧ i % bs = done % bs + (i - done) := by
  have rest : done % bs + (i - done) < bs := by omega
  have whole : i = bs * (done / bs) + (done % bs + (i - done)) := by
    have split := Nat.div_add_mod done bs
    omega
  constructor
  · rw [whole, Nat.mul_add_div (by omega), Nat.div_eq_of_lt rest, Nat.add_zero]
  · conv => lhs; rw [whole]
    rw [Nat.mul_add_mod, Nat.mod_eq_of_lt rest]

variable {before out : Bytes}

theorem Filled.chunk {disk out' : Bytes} {done chunk : Nat}
    (filled : Filled disk bs m before done out)
    (octets : ∀ i, done ≤ i → i < done + chunk → out' i = fileOctet disk bs m i)
    (others : ∀ i, i < done ∨ done + chunk ≤ i → out' i = out i) :
    Filled disk bs m before (done + chunk) out' := by
  constructor
  · intro i inside
    by_cases old : i < done
    · rw [others i (Or.inl old)]
      exact filled.octets i old
    · exact octets i (Nat.le_of_not_lt old) inside
  · intro i outside
    rw [others i (Or.inr outside)]
    exact filled.rest i (by omega)

theorem OnDevice.quiet (on : OnDevice t d bs) (quiet : Quiet t s) : OnDevice s d bs := by
  constructor
  · rw [quiet.e4]
    exact on.dev
  · rw [quiet.e4]
    exact on.size
  · rw [quiet.e4]
    exact on.sectors

/-- One round of the loop: at least one octet more, none beyond what is wanted. -/
theorem readLoop_step (rounds : Nat) (on : OnDevice t d bs) (size : bs ∈ [1024, 2048, 4096, 8192])
    {want done : Nat} (small : want < 2147483648) (readable : Readable t inode bs want m)
    (q : Quiet t s) (filled : Filled (t.disk d) bs m before done out) (more : done < want) :
    ∃ chunk out' s', readLoop inode want (rounds + 1) done out s = readLoop inode want rounds
    (done + chunk) out' s' ∧
      0 < chunk ∧ done + chunk ≤ want ∧ Quiet t s' ∧ Filled (t.disk d) bs m before
      (done + chunk) out' := by
  have supported := supported_cases size
  have positive : 0 < bs := by omega
  have offset : done % bs < bs := Nat.mod_lt _ positive
  have blockSize : s.e4.blockSize = bs := (on.quiet q).size
  -- the arithmetic of the round, without its machine words
  obtain ⟨chunk, hchunk⟩ : ∃ chunk, chunk = min (want - done) (bs - done % bs) := ⟨_, rfl⟩
  have toEnd : sub32 want done = want - done := sub32_of_le (by omega) (Nat.le_of_lt more)
  have boff : u32 (done % bs) = done % bs := u32_of_lt (by omega)
  have inBlock : sub32 bs (done % bs) = bs - done % bs :=
    sub32_of_le (by omega) (Nat.le_of_lt offset)
  have cut : (if want - done < bs - done % bs then want - done else bs - done % bs) = chunk := by
    rw [hchunk]
    split <;> omega
  have next : u32 (done + chunk) = done + chunk := u32_of_lt (by omega)
  have start : done / bs * bs < want := Nat.lt_of_le_of_lt (Nat.div_mul_le_self done bs) more
  have place : ∀ i, done ≤ i → i < done + chunk → i / bs = done / bs ∧
      i % bs = done % bs + (i - done) :=
    fun i from_done inside => in_chunk from_done (by omega)
  have mapped := readable.maps (done / bs) s start q
  have q1 := q.trans (e4Bmap_quiet inode (done / bs) s)
  rw [readLoop, if_neg (Nat.not_le_of_lt more), Cmd.get_bind, Cmd.attempt_bind]
  simp only [blockSize, toEnd, boff, inBlock, cut, next, mapped]
  generalize (e4Bmap inode (done / bs) s).2 = s1 at q1
  by_cases hole : m (done / bs) = 0
  · refine ⟨chunk, fill out done chunk 0, s1, by rw [if_pos hole], by omega, by omega, q1, ?_⟩
    apply filled.chunk
    · intro i from_done inside
      rw [fileOctet, (place i from_done inside).1, if_pos hole, fill, if_pos ⟨from_done, inside⟩]
    · intro i outside
      exact fill_outside out 0 outside
  · have read := readable.reads (done / bs) s1 start hole q1
    have content := fun i => @OnDevice.scratch1_of_read s1 d bs (on.quiet q1) size (m (done / bs)) i
      (e4Bmap_small mapped) read
    rw [q1.disk d] at content
    have q2 := q1.trans (readScratch1_quiet (m (done / bs)) s1)
    refine ⟨chunk, copy out done (readScratch1 (m (done / bs)) s1).2.scratch1 (done % bs) chunk,
      (readScratch1 (m (done / bs)) s1).2, ?_, by omega, by omega, q2, ?_⟩
    · rw [if_neg hole, Cmd.attempt_bind]
      simp only [read]
      rfl
    · apply filled.chunk
      · intro i from_done inside
        obtain ⟨k, rfl⟩ := Nat.exists_eq_add_of_le from_done
        obtain ⟨block, offset_i⟩ := place _ from_done inside
        rw [copy_inside _ _ _ _ _ _ (by omega), fileOctet, block, if_neg hole, content _ (by omega),
          offset_i,
          Nat.add_sub_cancel_left]
      · intro i outside
        exact copy_agree _ _ _ _ _ i (i + 1) (by omega) i (Nat.le_refl i) (Nat.lt_succ_self i)

/-! ## The whole read -/

/-- With a round for every octet that is left the loop returns, and has filled the buffer as
far as wanted. -/
theorem readLoop_run (on : OnDevice t d bs) (size : bs ∈ [1024, 2048, 4096, 8192])
    {want done rounds : Nat} (small : want < 2147483648) (readable : Readable t inode bs want m)
    (q : Quiet t s) (filled : Filled (t.disk d) bs m before done out) (within : done ≤ want)
    (enough : want < done + rounds) :
    ∃ out', (readLoop inode want rounds done out s).1 = some ((want : Int), out') ∧
      Filled (t.disk d) bs m before want out' := by
  induction rounds generalizing done out s with
  | zero => omega
  | succ rounds ih =>
    by_cases more : done < want
    · obtain ⟨chunk, out', s', step, positive, within', q', filled'⟩ :=
        readLoop_step rounds on size small readable q filled more
      rw [step]
      exact ih q' filled' within' (by omega)
    · have reached : done = want := by omega
      subst reached
      refine ⟨out, ?_, filled⟩
      rw [readLoop, if_pos (Nat.le_refl done), Cmd.pure_apply, toS32, if_pos small]

/-- Path resolution and the inode read of `ext4_read` succeed, with an inode that is not a
directory, in the state `t`. -/
structure OpensFile (lookup : Lookup) (path : List UInt8) (w : World) (inode : Bytes) (t : World) :
    Prop where
  mounted : w.e4.dev ≠ none
  opens : ∃ ino v, resolveFull lookup path w = (some ino, v) ∧
    e4ReadInode ino v.stackJunk v = (some inode, t)
  file : e4IsDir inode = false

theorem OpensFile.ext4Read {lookup : Lookup} {path : List UInt8}
    (opened : OpensFile lookup path w inode t) (out : Bytes) {maxLen : Nat}
    (small : maxLen < 2147483648) :
    ext4Read lookup path out maxLen w = readLoop inode (min (e4InodeSize t.e4 inode) maxLen)
      (min (e4InodeSize t.e4 inode) maxLen + 1) 0 out t := by
  obtain ⟨ino, v, resolved, read⟩ := opened.opens
  have want : (if e4InodeSize t.e4 inode < maxLen then u32 (e4InodeSize t.e4 inode) else maxLen) =
      min (e4InodeSize t.e4 inode) maxLen := by
    split
    next less => rw [u32_of_lt (by omega), Nat.min_eq_left (Nat.le_of_lt less)]
    next more => rw [Nat.min_eq_right (Nat.le_of_not_lt more)]
  rw [Fs.ext4Read, Cmd.get_bind, if_neg opened.mounted, Cmd.attempt_bind, resolved]
  dsimp only
  rw [Cmd.get_bind, Cmd.attempt_bind, read]
  dsimp only
  rw [opened.file, if_neg Bool.false_ne_true, Cmd.get_bind, want]

/-- A file that opens and whose blocks are found and read: `ext4_read` returns the smaller one
of its size and `max_len`, with that many octets of the file in the buffer and the rest of the
buffer as it was. -/
theorem file_read_assembles (lookup : Lookup) (path : List UInt8) (w t : World) (d bs maxLen : Nat)
    (inode out : Bytes) (m : Nat → Nat) (opened : OpensFile lookup path w inode t)
    (on : OnDevice t d bs) (size : bs ∈ [1024, 2048, 4096, 8192]) (small : maxLen < 2147483648)
    (readable : Readable t inode bs (min (e4InodeSize t.e4 inode) maxLen) m) :
    ∃ out', (ext4Read lookup path out maxLen w).1 = some
    (((min (e4InodeSize t.e4 inode) maxLen : Nat) : Int), out') ∧
      (∀ i, i < min (e4InodeSize t.e4 inode) maxLen →
        out' i = if m (i / bs) = 0 then 0 else blockAt (t.disk d) bs (m (i / bs)) (i % bs)) ∧
      ∀ i, min (e4InodeSize t.e4 inode) maxLen ≤ i → out' i = out i := by
  have nothing : Filled (t.disk d) bs m out 0 out := ⟨fun i none => absurd none (Nat.not_lt_zero i),
    fun _ _ => rfl⟩
  have bounded : min (e4InodeSize t.e4 inode) maxLen < 2147483648 :=
    Nat.lt_of_le_of_lt (Nat.min_le_right _ _) small
  have enough : min (e4InodeSize t.e4 inode) maxLen <
    0 + (min (e4InodeSize t.e4 inode) maxLen + 1) := by omega
  obtain ⟨out', returned, filled⟩ := readLoop_run on size bounded readable (Quiet.refl t) nothing
    (Nat.zero_le _) enough
  rw [opened.ext4Read out small]
  exact ⟨out', returned, filled.octets, filled.rest⟩

/-- The root is a file of 1030 octets with its first block at block 10 and no second one. -/
def fileDisk : Bytes :=
  let d := put16 sampleDirDisk (5 * 1024 + 256) 0x8000
  put32 d (5 * 1024 + 256 + 0x04) 1030

theorem fileDisk_readable {t : World} (q : Quiet (dirWorldOn fileDisk) t) :
    Readable t (dirInodeOn fileDisk) 1024 1030 (flatBlock (dirInodeOn fileDisk)) := by
  have first : flatBlock (dirInodeOn fileDisk) 0 = 10 := by decide
  have second : flatBlock (dirInodeOn fileDisk) 1 = 0 := by decide
  have depth : Eh.depth (dirInodeOn fileDisk) Ino.root = 0 := by decide
  constructor
  · intro lb s _ _
    rw [e4Bmap_descends (by decide) (by decide)]
    rfl
  · intro lb s inside mapped q'
    have transfers := (dirWorldOn_transfers fileDisk).kept (q.trans q').kept
    have zeroth : lb = 0 := by
      by_contra other
      have one : lb = 1 := by omega
      rw [one] at mapped
      exact mapped rfl
    have room : 10 < s.e4.blocksCount := by
      rw [(q.trans q').e4]
      decide
    rw [zeroth, first, transfers.readScratch1 room]

theorem file_read_assembles_sample :
    ∃ out', (ext4Read e4DirLookup [slash] zero 4096 (dirWorldOn fileDisk)).1 = some (1030, out') ∧
      out' 0 = 11 ∧ out' 8 = 97 ∧ out' 1027 = 0 := by
  obtain ⟨t, ht⟩ : ∃ t,
    t = (e4ReadInode 2 (dirWorldOn fileDisk).stackJunk (dirWorldOn fileDisk)).2 := ⟨_, rfl⟩
  have q : Quiet (dirWorldOn fileDisk) t := by
    rw [ht]
    exact e4ReadInode_quiet 2 _ _
  have opened : OpensFile e4DirLookup [slash] (dirWorldOn fileDisk) (dirInodeOn fileDisk) t :=
    ⟨by decide, ⟨2, dirWorldOn fileDisk, rfl,
      Prod.ext (dirWorldOn_found fileDisk) ht.symm⟩, by decide⟩
  have on : OnDevice (dirWorldOn fileDisk) 0 1024 := ⟨rfl, rfl, (by decide : 1024 = 2 * 512)⟩
  have length : min (e4InodeSize t.e4 (dirInodeOn fileDisk)) 4096 = 1030 := by
    rw [q.e4]
    decide
  obtain ⟨out', returned, octets, -⟩ :=
    file_read_assembles e4DirLookup [slash] (dirWorldOn fileDisk) t 0 1024 4096
    (dirInodeOn fileDisk) zero (flatBlock (dirInodeOn fileDisk)) opened (on.quiet q)
      (by decide) (by decide)
    (by rw [length]; exact fileDisk_readable q)
  rw [length] at returned octets
  have first : flatBlock (dirInodeOn fileDisk) 0 = 10 := by decide
  have second : flatBlock (dirInodeOn fileDisk) 1 = 0 := by decide
  have disk : t.disk 0 = fileDisk := q.disk 0
  refine ⟨out', returned, ?_, ?_, ?_⟩
  · rw [octets 0 (by decide), disk]
    decide
  · rw [octets 8 (by decide), disk]
    decide
  · rw [octets 1027 (by decide)]
    simp only [show 1027 / 1024 = 1 from rfl, second, if_true]

end Obsidian.Fs
