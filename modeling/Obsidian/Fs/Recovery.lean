import Obsidian.Fs.LogTags

/-!
# The caches during recovery

`ext4_mount` reads the superblock and the group descriptors into `e4.sb` and `e4.gdt`
and then replays the journal. The replay writes blocks of the log to the disk and
never looks at the caches; at its end it writes the cached superblock back.
-/
namespace Obsidian.Fs
open Lib Lib.Bytes Lib.Redo Drivers

/-- Where a group descriptor lies on the disk. -/
def Ext4Fs.descByte (e4 : Ext4Fs) (g : Nat) : Nat := e4.descBlock g * e4.blockSize + e4.descSlot g

/-- Every cached group descriptor is the one on the disk. -/
def World.DescMatch (w : World) (d : Nat) : Prop :=
  ∀ g, g < w.e4.groupCount → ∀ i, i < w.e4.descSize →
    w.e4.gdt (w.e4.gdOff g + i) = w.disk d (w.e4.descByte g + i)

/-- The caches hold what is on the disk. -/
structure CachesMatch (w : World) (d : Nat) : Prop where
  super : ∀ i, i < 1024 → w.e4.sb i = w.disk d (ext4SuperOff + i)
  desc : w.DescMatch d

/-- An octet of the superblock without the RECOVER bit. -/
def sbOctet (i : Nat) (v : UInt8) : UInt8 := if i = 0x60 then v &&& 0xFB else v

/-- Two disks have the same superblock, RECOVER bit and checksum apart. -/
def SameSuper (data data' : Bytes) : Prop :=
  ∀ i, i < 0x3FC → sbOctet i (data (ext4SuperOff + i)) = sbOctet i (data' (ext4SuperOff + i))

/-- After recovery the descriptors in the cache are those on the disk, and the superblock on
the disk is the one the passes left there. -/
def CoherentAfter (w : World) (d : Nat) : Prop :=
  (e4JournalReplay w).2.DescMatch d ∧
    SameSuper ((e4JournalReplay w).2.disk d) ((replayLog w).2.disk d)

/-- An octet in the two sectors of the superblock. -/
def InSuper (p : Nat) : Prop := ext4SuperOff ≤ p ∧ p < 2048

instance (p : Nat) : Decidable (InSuper p) := inferInstanceAs (Decidable (_ ∧ _))

/-- Block `b` holds no part of the superblock or of a group descriptor. -/
structure World.SparesCaches (w : World) (b : Nat) : Prop where
  super : Clear w.e4.blockSize b ext4SuperOff 1024
  desc : ∀ g, g < w.e4.groupCount → Clear w.e4.blockSize b (w.e4.descByte g) w.e4.descSize

/-- The tags of the log are for other blocks than those the caches were read from, and the
journal superblock has another block too. -/
structure LogSparesCaches (w : World) (d : Nat) (data : Bytes) (j : Journal) : Prop
    extends w.Contained d data j where
  caches : ∀ b, w.Names d data j b ∨ b = flatBlock j.jin 0 → w.SparesCaches b

/-! ## The superblock without its RECOVER bit -/

theorem clear_recover_octet {v k : Nat} (hv : v < 4294967296) (hpos : 0 < k) (hk : k < 4) :
    clearBits32 v featIncompatRecover / 256 ^ k = v / 256 ^ k := by
  have hpow : 256 ^ k = 2 ^ (8 * k) := by rw [Nat.pow_mul]
  have hmask : (0xFFFFFFFF ^^^ featIncompatRecover) / 2 ^ (8 * k) = 2 ^ (32 - 8 * k) - 1 := by
    have hcases : k = 1 ∨ k = 2 ∨ k = 3 := by omega
    rcases hcases with rfl | rfl | rfl
    · rfl
    · rfl
    · rfl
  have hbound : v / 2 ^ (8 * k) < 2 ^ (32 - 8 * k) := by
    rw [Nat.div_lt_iff_lt_mul (Nat.two_pow_pos _), ← Nat.pow_add]
    have : 32 - 8 * k + 8 * k = 32 := by omega
    rw [this]
    exact hv
  rw [clearBits32, hpow, Nat.and_div_two_pow, hmask, Nat.and_two_pow_sub_one_of_lt_two_pow hbound]

theorem recoveredSb_octet (sb : Bytes) {i : Nat} (hi : i < 0x3FC) :
    sbOctet i (recoveredSb sb i) = sbOctet i (sb i) := by
  have hsum : recoveredSb sb i =
      Sb.putFeatureIncompat sb (clearBits32 (Sb.featureIncompat sb) featIncompatRecover) i :=
    put32_agree _ _ _ i (i + 1) (by omega) i (Nat.le_refl _) (Nat.lt_succ_self _)
  rw [hsum]
  by_cases inside : 0x60 ≤ i ∧ i < 0x64
  · obtain ⟨k, rfl⟩ := Nat.exists_eq_add_of_le inside.1
    have hk : k < 4 := by omega
    rw [Sb.putFeatureIncompat, put32_at _ _ _ hk]
    by_cases low : k = 0
    · subst low
      apply UInt8.toNat_inj.mp
      have hoctet := congrArg UInt8.toNat (get32_at sb 0x60 (k := 0) (by decide))
      simp only [pow_zero, Nat.div_one, Nat.add_zero, UInt8.toNat_ofNat'] at hoctet
      simp only [sbOctet, Nat.add_zero, if_true, UInt8.toNat_and, pow_zero, Nat.div_one,
        UInt8.toNat_ofNat', Sb.featureIncompat]
      rw [clearBits32, Nat.and_mod_two_pow, ← hoctet, Nat.and_assoc]
      rfl
    · rw [Sb.featureIncompat, clear_recover_octet (get32_lt _ _) (by omega) hk, get32_at _ _ hk]
  · have hkeep : Sb.putFeatureIncompat sb (clearBits32 (Sb.featureIncompat sb) featIncompatRecover)
        i = sb i :=
      put32_agree _ _ _ i (i + 1) (by omega) i (Nat.le_refl _) (Nat.lt_succ_self _)
    rw [hkeep]

/-! ## What is coherent afterwards -/

variable {w : World} {d : Nat}

/-- A successful recovery without device errors. -/
structure Recovered (w : World) (d : Nat) : Prop where
  e4 : (e4JournalReplay w).2.e4 = if w.resets then w.e4.recovered else w.e4
  disk : (e4JournalReplay w).2.disk d = w.recoveredDisk d (w.disk d)
  log : (replayLog w).2.disk d = w.redone d (w.disk d)

theorem Sound.journal_found (sound : Sound w d) (healthy : w.Healthy) (due : w.e4.recovers)
    (ok : (e4JournalReplay w).1 = some ()) : ∃ j, w.journal d (w.disk d) = some j := by
  obtain ⟨hnone, -⟩ := (sound.replay due).done (healthy.alive e4JournalReplay_inert)
  cases hfound : w.journal d (w.disk d) with
  | none =>
    obtain ⟨hfail, -⟩ := hnone hfound
    rw [hfail] at ok
    cases ok
  | some j => exact ⟨j, rfl⟩

theorem Sound.recovered (sound : Sound w d) (healthy : w.Healthy) (due : w.e4.recovers)
    (ok : (e4JournalReplay w).1 = some ()) : Recovered w d := by
  obtain ⟨-, hsome⟩ := (sound.replay due).done (healthy.alive e4JournalReplay_inert)
  have hlog := (sound.replayLog due).done (healthy.alive replayLog_inert)
  obtain ⟨j, hfound⟩ := sound.journal_found healthy due ok
  obtain ⟨-, he4, hdisk⟩ := hsome j hfound
  refine ⟨he4, hdisk, ?_⟩
  rw [hfound] at hlog
  rw [hlog.2.disk, onDisk_disk, World.redone, World.tagged, hfound]

theorem putSuper_inside (data sb : Bytes) {i : Nat} (hi : i < 1024) :
    putSuper data sb (ext4SuperOff + i) = sb i := by
  rw [putSuper, copy_inside _ _ _ _ _ _ hi, Nat.zero_add]

theorem putSuper_outside (data sb : Bytes) {p : Nat} (outside : ¬ InSuper p) :
    putSuper data sb p = data p :=
  if_neg outside

/-- The passes and the rewrite of the journal superblock leave the superblock and the
descriptors as they are on the disk. -/
theorem LogSparesCaches.agree {data : Bytes} {j : Journal} (log : LogSparesCaches w d data j)
    (sound : Sound w d) (found : w.journal d data = some j) {ws : List Write}
    (part : ∀ write ∈ ws, write ∈ w.tagged d data ∨ write ∈ w.jsbWrite d data) :
    Agree (writeAll w.e4.blockSize ws data) data ext4SuperOff (ext4SuperOff + 1024) ∧
      ∀ g, g < w.e4.groupCount → Agree (writeAll w.e4.blockSize ws data) data
        (w.e4.descByte g) (w.e4.descByte g + w.e4.descSize) := by
  obtain ⟨tagged, jsb⟩ := log.toContained.writes sound (found_iff.mp found)
  have spares : ∀ write ∈ ws, w.SparesCaches write.1 := by
    intro write member
    apply log.caches
    rcases part write member with h | h
    · exact Or.inl (tagged write h)
    · exact Or.inr (jsb write h)
  have pos := sound.blockSize_pos
  exact ⟨agree_of_clear pos (fun write member => (spares write member).super) data,
    fun g hg => agree_of_clear pos (fun write member => (spares write member).desc g hg) data⟩

theorem Recovered.descMatch_iff (recovered : Recovered w d) (desc : w.DescMatch d) :
    (e4JournalReplay w).2.DescMatch d ↔ ∀ g, g < w.e4.groupCount → ∀ i, i < w.e4.descSize →
        w.disk d (w.e4.descByte g + i) = w.recoveredDisk d (w.disk d) (w.e4.descByte g + i) := by
  have hgeometry : (e4JournalReplay w).2.e4 =
      { w.e4 with
          featIncompat := (e4JournalReplay w).2.e4.featIncompat,
          sb := (e4JournalReplay w).2.e4.sb } := by
    rw [recovered.e4]
    split
    · rfl
    · rfl
  unfold World.DescMatch
  rw [recovered.disk, hgeometry]
  constructor
  · intro after g hg i hi
    exact (desc g hg i hi).symm.trans (after g hg i hi)
  · intro same g hg i hi
    exact (desc g hg i hi).trans (same g hg i hi)

theorem idle_coherent (idle : ¬ w.e4.recovers) (caches : CachesMatch w d) : CoherentAfter w d := by
  have hidle : e4JournalReplay w = (some (), { w with committed := [], lastCommitSeq := 0 }) := by
    rw [e4JournalReplay_eq, Cmd.bind_some (replayLog_idle idle)]
    rfl
  unfold CoherentAfter
  rw [hidle, replayLog_idle idle]
  exact ⟨caches.desc, fun _ _ => rfl⟩

/-- One committed transaction with a copy of one block. -/
def oneCopy (target : UInt8) (copy : List UInt8) : World :=
  journalWorld (withLog journalDisk
    [(2, journalBlock 1 1 (journalTag target 0)), (3, copy), (4, journalBlock 3 1 [])])

theorem oneCopy_descByte (target : UInt8) (copy : List UInt8) :
    (oneCopy target copy).e4.descByte 0 = 2048 := by
  show u32 (u32 (1 + 1) + 0 / (1024 / 32)) * 1024 + 0 % (1024 / 32) * 32 = 2048
  decide

theorem oneCopy_caches (target : UInt8) (copy : List UInt8) :
    CachesMatch (oneCopy target copy) 0 := by
  constructor
  · intro i hi
    rfl
  · intro g hg i hi
    have hzero : g = 0 := Nat.lt_one_iff.mp hg
    subst hzero
    have hcache : (oneCopy target copy).e4.gdOff 0 = 0 := Nat.zero_mul _
    rw [oneCopy_descByte, hcache, Nat.zero_add]
    rfl

theorem oneCopy_spares (target : UInt8) (copy : List UInt8) {b : Nat} (behind : 3 ≤ b) :
    (oneCopy target copy).SparesCaches b := by
  constructor
  · show b * 1024 + 1024 ≤ 1024 ∨ 1024 + 1024 ≤ b * 1024
    omega
  · intro g hg
    have hzero : g = 0 := Nat.lt_one_iff.mp hg
    subst hzero
    rw [oneCopy_descByte]
    show b * 1024 + 1024 ≤ 2048 ∨ 2048 + 32 ≤ b * 1024
    omega

end Obsidian.Fs
