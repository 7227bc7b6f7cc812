import Obsidian.Fs.JournalStable

/-!
# What a log names

The second pass goes through the tags of the descriptors that have a commit block. The
blocks these tags name, read off the octets of the log before the replay, are all that the
replay looks at and writes, as long as none of them is read as a part of the log.
-/
namespace Obsidian.Fs
open Lib Lib.Bytes Lib.Redo Drivers

variable {w : World} {d : Nat} {data : Bytes} {j : Journal}

/-! ## The journal that is replayed -/

section journal

variable {inode jin jsb : Bytes} {ws : List Write} {b i jblocks : Nat}

/-- What makes up a journal that is found. -/
structure Found (w : World) (d : Nat) (data : Bytes) (j : Journal) : Prop where
  inode : w.inodeOn d data (Sb.journalInum w.e4.sb) w.jin = some j.jin
  ready : w.ready j.jin
  jsb : w.log d data j.jin 0 = some j.jsb
  jblocks : j.jblocks = e4InodeSize w.e4 j.jin / w.e4.blockSize
  runs : (w.allocated 2).runsPasses j.jsb j.jblocks

theorem found_iff : w.journal d data = some j ↔ Found w d data j := by
  unfold World.journal World.journalOf
  constructor
  · intro found
    split at found
    · cases found
    next jin hinode =>
      split at found
      next ready =>
        split at found
        · cases found
        next jsb hjsb =>
          split at found
          next runs =>
            cases found
            exact ⟨hinode, ready, hjsb, rfl, runs⟩
          · cases found
      · cases found
  · rintro ⟨hinode, ready, hjsb, hjblocks, runs⟩
    rw [hinode]
    dsimp only
    rw [if_pos ready, hjsb]
    dsimp only
    rw [← hjblocks, if_pos runs]

theorem cap_le (jsb : Bytes) (jblocks : Nat) : Jsb.cap jsb jblocks ≤ jblocks := by
  unfold Jsb.cap
  split
  next h => exact h.2
  · exact Nat.le_refl _

theorem Found.positive (found : Found w d data j) :
    2 ≤ Jsb.first j.jsb ∧ Jsb.first j.jsb < j.jblocks := by
  have accepted := found.runs.1
  unfold Jsb.bogus at accepted
  omega

/-- Block `b` does not meet the `len` octets from `start` on. -/
def Clear (bs b start len : Nat) : Prop := b * bs + bs ≤ start ∨ start + len ≤ b * bs

instance (bs b start len : Nat) : Decidable (Clear bs b start len) := inferInstanceAs
    (Decidable (_ ∨ _))

theorem agree_of_clear {bs start len : Nat} (pos : 0 < bs)
    (clear : ∀ write ∈ ws, Clear bs write.1 start len) (data : Bytes) :
    Agree (writeAll bs ws data) data start (start + len) := by
  intro p hlo hhi
  apply writeAll_other pos
  intro write hmem hblock
  have hdiv := Nat.div_add_mod p bs
  have hmod := Nat.mod_lt p pos
  rw [← hblock, Nat.mul_comm] at hdiv
  rcases clear write hmem with h | h
  · omega
  · omega

/-- Block `b` holds no part of the journal inode. -/
def World.SparesInode (w : World) (b : Nat) : Prop :=
  Clear w.e4.blockSize b (w.lba (w.e4.inodeBlk (Sb.journalInum w.e4.sb)) * sectorSize)
    w.e4.blockSize ∧
    (¬ w.e4.inOneBlock (Sb.journalInum w.e4.sb) → Clear w.e4.blockSize b
      (w.lba (u64 (w.e4.inodeBlk (Sb.journalInum w.e4.sb) + 1)) * sectorSize) w.e4.blockSize)

instance (w : World) (b : Nat) : Decidable (w.SparesInode b) := inferInstanceAs (Decidable (_ ∧ _))

theorem inodeOn_spared (sound : Sound w d) (spared : ∀ write ∈ ws, w.SparesInode write.1)
    (data out : Bytes) :
    w.inodeOn d (writeAll w.e4.blockSize ws data) (Sb.journalInum w.e4.sb) out =
      w.inodeOn d data (Sb.journalInum w.e4.sb) out := by
  apply inodeOn_congr
  · exact agree_of_clear sound.blockSize_pos (fun write hmem => (spared write hmem).1) data
  · intro spans
    exact agree_of_clear sound.blockSize_pos (fun write hmem => (spared write hmem).2 spans) data

theorem copy_twice (out first second : Bytes) (off part n : Nat) :
    copy (copy (copy (copy out 0 first off part) part second 0 n) 0 first off part) part
    second 0 n = copy (copy out 0 first off part) part second 0 n := by
  funext j
  unfold copy
  by_cases later : part ≤ j ∧ j < part + n
  · rw [if_pos later, if_pos later]
  · rw [if_neg later, if_neg later]
    split
    · rfl
    · rfl

theorem inodeOn_again {ino : Nat} {out : Bytes} (read : w.inodeOn d data ino out = some inode) :
    w.inodeOn d data ino inode = some inode := by
  unfold World.inodeOn at read ⊢
  split at read
  next present =>
    rw [if_pos present]
    dsimp only at read ⊢
    split at read
    next one =>
      cases read
      rw [if_pos one]
      congr 1
      funext j
      unfold copy
      split
      · rfl
      · rfl
    next two =>
      split at read
      next near =>
        cases read
        rw [if_neg two, if_pos near, copy_twice]
      · cases read
  · cases read

theorem writeAll_sameAt (sound : Sound w d) (small : b < 562949953421312)
    (apart : ∀ write ∈ ws, write.1 ≠ b) (data : Bytes) :
    w.SameAt (writeAll w.e4.blockSize ws data) data b := by
  induction ws generalizing data with
  | nil => exact Agree.refl _ _ _
  | cons write rest ih =>
    rw [writeAll_cons]
    have later := ih (fun v hv => apart v (List.mem_cons_of_mem _ hv))
      (writeBlock w.e4.blockSize data write)
    exact later.trans (writeBlock_sameAt sound small (apart write List.mem_cons_self))

theorem mapsTo_extents (extents : Ino.flags inode &&& inoFlagExtents ≠ 0) {phys : Nat}
    (mapped : w.mapsTo d data inode i = some phys) : phys = flatBlock inode i := by
  unfold World.mapsTo at mapped
  rw [if_pos extents] at mapped
  split at mapped
  · exact (Option.some.inj mapped).symm
  · cases mapped

theorem log_apart (sound : Sound w d) {jin : Bytes} (extents : Ino.flags jin &&& inoFlagExtents ≠ 0)
    (depth : Eh.depth jin Ino.root = 0) (apart : ∀ write ∈ ws, write.1 ≠ flatBlock jin i)
    (data : Bytes) :
    w.log d (writeAll w.e4.blockSize ws data) jin i = w.log d data jin i := by
  apply log_congr depth
  intro phys mapped
  rw [mapsTo_extents extents mapped]
  exact writeAll_sameAt sound (flatBlock_small _ _) apart data

theorem passOf_stable (sound : Sound w d) (extents : Ino.flags jin &&& inoFlagExtents ≠ 0)
    (depth : Eh.depth jin Ino.root = 0) (data jsb : Bytes) (jblocks : Nat) :
    (w.passOf d data jin jsb jblocks).Stable (Jsb.first jsb)
      fun b => ∀ i, Jsb.first jsb ≤ i → i < Jsb.cap jsb jblocks → b ≠ flatBlock jin i := by
  intro before write i ok hlo hhi
  have apart : ∀ v ∈ [write], v.1 ≠ flatBlock jin i := by
    intro v hv
    rw [List.mem_singleton.mp hv]
    exact ok i hlo hhi
  exact log_apart sound extents depth apart before

end journal

/-! ## Tags and commits -/

/-- Tag `k` of a descriptor block is for block `target`. Neither it nor a tag before it is
flagged as the last one or is for block 0. -/
def TagFor (bs tagsz : Nat) (buf : Bytes) (k target : Nat) : Prop :=
  12 + (k + 1) * tagsz ≤ bs ∧ getBE32 buf (12 + k * tagsz) = target ∧
    ∀ m, m ≤ k → getBE32 buf (12 + m * tagsz + 4) &&& tagLast = 0 ∧
      getBE32 buf (12 + m * tagsz) ≠ 0

/-- The log has a block of this kind with these octets. -/
def World.HasRecord (w : World) (d : Nat) (data : Bytes) (j : Journal) (kind : Nat)
    (buf : Bytes) : Prop :=
  ∃ i, Jsb.first j.jsb ≤ i ∧ i < Jsb.cap j.jsb j.jblocks ∧ w.log d data j.jin i = some buf ∧
    getBE32 buf 0 = jMagic ∧ getBE32 buf 4 = kind

/-- A descriptor with a commit block has a tag for block `b`. -/
def World.Names (w : World) (d : Nat) (data : Bytes) (j : Journal) (b : Nat) : Prop :=
  ∃ buf k, w.HasRecord d data j jtDesc buf ∧
    (∃ commit, w.HasRecord d data j jtCommit commit ∧ getBE32 commit 8 = getBE32 buf 8) ∧
    TagFor w.e4.blockSize (Jsb.tagsz j.jsb) buf k b

/-- No block that the log names is read as a part of the log. -/
def World.OutsideLog (w : World) (d : Nat) (data : Bytes) (j : Journal) : Prop :=
  (w.passOf d data j.jin j.jsb j.jblocks).Stable (Jsb.first j.jsb) (w.Names d data j)

/-! ## The second pass -/

section pass

variable {p : Pass}

theorem Pass.tags_named (buf : Bytes) (more c k : Nat) (data : Bytes)
    (earlier : ∀ m, m < k → getBE32 buf (12 + m * p.tagsz + 4) &&& tagLast = 0 ∧
      getBE32 buf (12 + m * p.tagsz) ≠ 0) :
    (∀ write ∈ (p.tags buf more c (12 + k * p.tagsz) data).2, ∃ n,
      TagFor p.bs p.tagsz buf n write.1) ∧
      ∀ b ∈ p.tagLooks buf more c (12 + k * p.tagsz) data, ∃ n, TagFor p.bs p.tagsz buf n b := by
  induction more generalizing c k data with
  | zero => exact ⟨List.forall_mem_nil _, List.forall_mem_nil _⟩
  | succ more ih =>
    rw [Pass.tags, Pass.tagLooks]
    by_cases stops : p.stops buf c (12 + k * p.tagsz)
    · rw [if_pos stops, if_pos stops]
      exact ⟨List.forall_mem_nil _, List.forall_mem_nil _⟩
    rw [if_neg stops, if_neg stops]
    obtain ⟨room, rest⟩ := not_or.mp stops
    obtain ⟨last, target⟩ := not_or.mp rest
    have passed : ∀ m, m < k + 1 → getBE32 buf (12 + m * p.tagsz + 4) &&& tagLast = 0 ∧
        getBE32 buf (12 + m * p.tagsz) ≠ 0 := by
      intro m hm
      by_cases here : m = k
      · subst here
        exact ⟨not_not.mp last, target⟩
      · exact earlier m (by omega)
    have hnext : 12 + k * p.tagsz + p.tagsz = 12 + (k + 1) * p.tagsz := by
      rw [Nat.succ_mul, Nat.add_assoc]
    have tag : TagFor p.bs p.tagsz buf k (getBE32 buf (12 + k * p.tagsz)) := by
      refine ⟨?_, rfl, fun m hm => passed m (by omega)⟩
      rw [← hnext]
      omega
    cases p.log data c with
    | none => exact ⟨List.forall_mem_nil _, List.forall_mem_nil _⟩
    | some content =>
      dsimp only
      rw [hnext, List.forall_mem_cons]
      split
      · obtain ⟨writes, looks⟩ := ih (c + 1) (k + 1) data passed
        exact ⟨writes, ⟨k, tag⟩, looks⟩
      split
      · obtain ⟨writes, looks⟩ := ih (c + 1) (k + 1)
          (writeBlock p.bs data (tagWrite buf (12 + k * p.tagsz) content)) passed
        exact ⟨List.forall_mem_cons.mpr ⟨⟨k, tag⟩, writes⟩, ⟨k, tag⟩, looks⟩
      · exact ⟨List.forall_mem_nil _, ⟨k, tag⟩, List.forall_mem_nil _⟩

/-- All that the second pass writes and looks at is named, when writing it leaves the log. -/
theorem Pass.blocks_named {first i : Nat} {ok : Nat → Prop} (stable : p.Stable first ok)
    (named : ∀ i buf k b, first ≤ i → i < p.cap → p.log data i = some buf → p.describes buf →
      TagFor p.bs p.tagsz buf k b → ok b) (more : Nat) (hi : first ≤ i) :
    (∀ write ∈ p.blocks more i data, ok write.1) ∧ ∀ b ∈ p.looks more i data, ok b := by
  induction more generalizing i data with
  | zero => exact ⟨List.forall_mem_nil _, List.forall_mem_nil _⟩
  | succ more ih =>
    rw [Pass.blocks, Pass.looks]
    by_cases past : p.cap ≤ i
    · rw [if_pos past, if_pos past]
      exact ⟨List.forall_mem_nil _, List.forall_mem_nil _⟩
    rw [if_neg past, if_neg past]
    cases hlog : p.log data i with
    | none => exact ih named (Nat.le_succ_of_le hi)
    | some buf =>
      dsimp only
      by_cases describes : p.describes buf
      · rw [if_pos describes, if_pos describes, List.forall_mem_append, List.forall_mem_append]
        have tags := Pass.tags_named (p := p) buf p.bs (i + 1) 0 data
          fun m hm => absurd hm (Nat.not_lt_zero m)
        rw [Nat.zero_mul, Nat.add_zero] at tags
        have here : ∀ b, (∃ k, TagFor p.bs p.tagsz buf k b) → ok b := by
          rintro b ⟨k, tag⟩
          exact named i buf k b hi (Nat.lt_of_not_le past) hlog describes tag
        have writes : ∀ write ∈ (p.tags buf p.bs (i + 1) 12 data).2, ok write.1 :=
          fun write member =>
          here _ (tags.1 write member)
        -- the log is the same after the writes of this descriptor
        have later : ∀ n next k b, first ≤ n → n < p.cap →
            p.log (writeAll p.bs (p.tags buf p.bs (i + 1) 12 data).2 data) n = some next →
            p.describes next → TagFor p.bs p.tagsz next k b → ok b := by
          intro n next k b lo hi read
          rw [stable.writeAll writes data lo hi] at read
          exact named n next k b lo hi read
        have hnext := Pass.tags_next (p := p) buf p.bs (i + 1) 12 data
        have rest := ih later (Nat.le_trans (Nat.le_succ_of_le hi) hnext)
        exact ⟨⟨writes, rest.1⟩, fun b member => here b (tags.2 b member), rest.2⟩
      · rw [if_neg describes, if_neg describes]
        exact ih named (Nat.le_succ_of_le hi)

end pass

/-! ## The first pass -/

theorem Scan.block_committed (e4 : Ext4Fs) (s : Scan) (buf : Bytes) {seq : Nat}
    (member : seq ∈ (s.block e4 buf).committed) : seq ∈ s.committed ∨
      getBE32 buf 0 = jMagic ∧ getBE32 buf 4 = jtCommit ∧ getBE32 buf 8 = seq := by
  unfold Scan.block at member
  split at member
  · exact Or.inl member
  next magic =>
    split at member
    next kind =>
      unfold Scan.commit at member
      split at member
      · exact Or.inl member
      · dsimp only at member
        split at member
        · rcases List.mem_append.mp member with old | new
          · exact Or.inl old
          · exact Or.inr ⟨not_not.mp magic, kind, (List.mem_singleton.mp new).symm⟩
        · exact Or.inl member
    · split at member
      · split at member
        · exact Or.inl member
        · exact Or.inl member
      · exact Or.inl member

theorem scanLog_committed (e4 : Ext4Fs) (log : Nat → Option Bytes) (more i : Nat) (s : Scan)
    {seq : Nat} (member : seq ∈ (scanLog e4 log more i s).committed) :
    seq ∈ s.committed ∨
      ∃ k buf, i ≤ k ∧ k < i + more ∧ log k = some buf ∧ getBE32 buf 0 = jMagic ∧
        getBE32 buf 4 = jtCommit ∧ getBE32 buf 8 = seq := by
  induction more generalizing i s with
  | zero => exact Or.inl member
  | succ more ih =>
    rw [scanLog] at member
    rcases ih (i + 1) _ member with before | ⟨k, buf, lo, hi, found⟩
    · cases hlog : log i with
      | none =>
        rw [hlog] at before
        exact Or.inl before
      | some buf =>
        rw [hlog, Option.map_some, Option.getD_some] at before
        rcases Scan.block_committed e4 s buf before with old | new
        · exact Or.inl old
        · exact Or.inr ⟨i, buf, Nat.le_refl i, by omega, hlog, new⟩
    · exact Or.inr ⟨k, buf, by omega, by omega, found⟩

/-! ## The whole replay -/

/-- The targets that the second pass of a journal looks at. -/
def World.lookedOf (w : World) (d : Nat) (data jin jsb : Bytes) (jblocks : Nat) : List Nat :=
  if (w.scanOf d data jin jsb jblocks).committed.length = 0 then []
  else (w.passOf d data jin jsb jblocks).looks (Jsb.cap jsb jblocks - Jsb.first jsb)
    (Jsb.first jsb) data

theorem World.OutsideLog.named (outside : w.OutsideLog d data j) :
    (∀ write ∈ w.writesOf d data j.jin j.jsb j.jblocks, w.Names d data j write.1) ∧
      ∀ b ∈ w.lookedOf d data j.jin j.jsb j.jblocks, w.Names d data j b := by
  unfold World.writesOf World.lookedOf
  split
  · exact ⟨List.forall_mem_nil _, List.forall_mem_nil _⟩
  apply Pass.blocks_named outside _ _ (Nat.le_refl _)
  intro i buf k b lo hi read describes tag
  obtain ⟨magic, kind, committed⟩ := describes
  refine ⟨buf, k, ⟨i, lo, hi, read, magic, kind⟩, ?_, tag⟩
  rcases scanLog_committed _ _ _ _ _ (List.contains_iff_mem.mp committed) with none | found
  · exact absurd none List.not_mem_nil
  · obtain ⟨n, commit, low, high, block, hmagic, hkind, hseq⟩ := found
    exact ⟨commit, ⟨n, low, by omega, block, hmagic, hkind⟩, hseq⟩

/-- With the extents in the inode it is enough that no named block is one of the journal. -/
theorem outside_of_flat (sound : Sound w d) (found : Found w d data j)
    (depth : Eh.depth j.jin Ino.root = 0)
    (apart : ∀ b, w.Names d data j b → ∀ i, i < j.jblocks → b ≠ flatBlock j.jin i) :
    w.OutsideLog d data j := by
  intro before write i named lo hi
  exact passOf_stable sound found.ready.1 depth data j.jsb j.jblocks before write i
    (fun k _ high => apart _ named k (Nat.lt_of_lt_of_le high (cap_le _ _))) lo hi

/-- What the log names lies in the filesystem, outside the log and outside the journal inode. -/
structure World.Contained (w : World) (d : Nat) (data : Bytes) (j : Journal) : Prop where
  below : ∀ b, w.Names d data j b → b < w.e4.blocksCount
  outside : w.OutsideLog d data j
  inode : ∀ b, w.Names d data j b → w.SparesInode b

/-- The writes of the replay are to blocks that the log names, and the journal superblock goes
back to its block. -/
theorem World.Contained.writes (contained : w.Contained d data j) (sound : Sound w d)
    (found : Found w d data j) : (∀ write ∈ w.tagged d data, w.Names d data j write.1) ∧
      ∀ write ∈ w.jsbWrite d data, write.1 = flatBlock j.jin 0 := by
  have named : ∀ write ∈ w.tagged d data, w.Names d data j write.1 := by
    rw [World.tagged, found_iff.mpr found, World.redoOf]
    exact contained.outside.named.1
  refine ⟨named, ?_⟩
  have hview := opened_view w d data j
  have hinode : w.inodeOn d (w.redone d data) (Sb.journalInum w.e4.sb) j.jin = some j.jin := by
    rw [World.redone, inodeOn_spared sound fun write member =>
      contained.inode _ (named write member)]
    exact inodeOn_again found.inode
  rw [World.jsbWrite, found_iff.mpr found]
  dsimp only
  split
  · rw [World.emptied, hview.inodeOn, hview.e4, opened_jin, hinode]
    dsimp only
    rw [hview.mapsTo]
    cases mapped : w.mapsTo d (w.redone d data) j.jin 0 with
    | none => exact List.forall_mem_nil _
    | some phys =>
      dsimp only
      split
      · rw [List.forall_mem_singleton]
        exact mapsTo_extents found.ready.1 mapped
      · exact List.forall_mem_nil _
  · exact List.forall_mem_nil _

/-! ## Samples -/

/-- The targets of a descriptor, up to a tag flagged as the last one or for block 0. -/
def tagTargets (bs tagsz : Nat) (buf : Bytes) : Nat → Nat → List Nat
  | 0, _ => []
  | more + 1, off =>
    if bs < off + tagsz ∨ getBE32 buf (off + 4) &&& tagLast ≠ 0 ∨ getBE32 buf off = 0 then []
    else getBE32 buf off :: tagTargets bs tagsz buf more (off + tagsz)

theorem TagFor.mem {bs tagsz k target : Nat} {buf : Bytes} (tag : TagFor bs tagsz buf k target)
    (more first : Nat) (lo : first ≤ k) (hi : k < first + more) :
    target ∈ tagTargets bs tagsz buf more (12 + first * tagsz) := by
  induction more generalizing first with
  | zero => omega
  | succ more ih =>
    obtain ⟨last, nonzero⟩ := tag.2.2 first lo
    have hnext : 12 + first * tagsz + tagsz = 12 + (first + 1) * tagsz := by
      rw [Nat.succ_mul, Nat.add_assoc]
    have room : 12 + (first + 1) * tagsz ≤ bs :=
      Nat.le_trans (Nat.add_le_add_left (Nat.mul_le_mul_right _ (Nat.succ_le_succ lo)) 12) tag.1
    rw [tagTargets,
      if_neg (by rw [hnext]; rintro (h | h | h); exacts [by omega, h last, nonzero h])]
    by_cases here : k = first
    · subst here
      rw [tag.2.1]
      exact List.mem_cons_self
    · rw [hnext]
      exact List.mem_cons_of_mem _ (ih (first + 1) (by omega) (by omega))

/-- The targets in the descriptor blocks of the log. -/
def World.targets (w : World) (d : Nat) (data : Bytes) (j : Journal) : List Nat :=
  (List.range (Jsb.cap j.jsb j.jblocks)).flatMap fun i =>
    match w.log d data j.jin i with
    | none => []
    | some buf =>
      if getBE32 buf 0 = jMagic ∧ getBE32 buf 4 = jtDesc then
        tagTargets w.e4.blockSize (Jsb.tagsz j.jsb) buf w.e4.blockSize 12
      else []

theorem World.Names.mem {b : Nat} (names : w.Names d data j b) : b ∈ w.targets d data j := by
  obtain ⟨buf, k, ⟨i, _, hi, read, kind⟩, _, tag⟩ := names
  refine List.mem_flatMap.mpr ⟨i, List.mem_range.mpr hi, ?_⟩
  rw [read]
  dsimp only
  rw [if_pos kind]
  have hpos : 0 < Jsb.tagsz j.jsb := by
    unfold Jsb.tagsz
    split <;> decide
  have hroom : k < w.e4.blockSize := by
    have := tag.1
    have := Nat.le_mul_of_pos_right (k + 1) hpos
    omega
  have := tag.mem w.e4.blockSize 0 (Nat.zero_le k) (by omega)
  rwa [Nat.zero_mul, Nat.add_zero] at this

/-- Where a journal lies: depth of its root, limits of its log, and its blocks. -/
def Journal.layout (j : Journal) : Nat × Nat × Nat × List Nat :=
  (Eh.depth j.jin Ino.root, Jsb.first j.jsb, Jsb.cap j.jsb j.jblocks,
    (List.range j.jblocks).map (flatBlock j.jin))

theorem flatBlock_mem (inside : i < j.jblocks) : flatBlock j.jin i ∈ j.layout.2.2.2 :=
  List.mem_map_of_mem (List.mem_range.mpr inside)

/-- A journal with its extents in the inode whose log names a few blocks elsewhere. -/
theorem contained_of_layout (sound : Sound w d) (found : w.journal d data = some j)
    {first cap : Nat} {blocks targets : List Nat} (layout : j.layout = (0, first, cap, blocks))
    (named : w.targets d data j = targets)
    (good : ∀ b ∈ targets, b < w.e4.blocksCount ∧ b ∉ blocks ∧ w.SparesInode b) :
    w.Contained d data j := by
  have names : ∀ b, w.Names d data j b → b ∈ targets := fun b names => named ▸ names.mem
  have hblocks : (List.range j.jblocks).map (flatBlock j.jin) = blocks :=
    congrArg (fun l => l.2.2.2) layout
  refine ⟨fun b h => (good b (names b h)).1, ?_, fun b h => (good b (names b h)).2.2⟩
  refine outside_of_flat sound (found_iff.mp found) (congrArg Prod.fst layout) ?_
  rintro b h i hi rfl
  apply (good _ (names _ h)).2.1
  rw [← hblocks]
  exact List.mem_map_of_mem (List.mem_range.mpr hi)

end Obsidian.Fs
