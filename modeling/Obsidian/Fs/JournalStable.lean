import Obsidian.Fs.Replay

/-!
# Logs that do not change while they are replayed

As long as no write hits a block of the log, the two passes read the same log from
every disk that the replay goes through. What a replay writes then depends on the
disk only through its log.
-/
namespace Obsidian.Fs
open Lib Lib.Bytes Lib.Redo Drivers

variable {w : World} {d : Nat} {data data' : Bytes}

/-! ## Reads that agree -/

/-- The two disks hold the same octets where block `b` is read from. -/
def World.SameAt (w : World) (data data' : Bytes) (b : Nat) : Prop :=
  Agree data data' (w.lba b * sectorSize) (w.lba b * sectorSize + w.e4.blockSize)

theorem fetch_congr {b : Nat} (same : w.SameAt data data' b) (buf : Bytes) :
    w.fetch data buf b = w.fetch data' buf b := by
  funext j
  unfold World.fetch copy
  split
  · exact same _ (by omega) (by omega)
  · rfl

theorem inodeOn_congr {ino : Nat} (first : w.SameAt data data' (w.e4.inodeBlk ino))
    (second : ¬ w.e4.inOneBlock ino → w.SameAt data data' (u64 (w.e4.inodeBlk ino + 1)))
    (out : Bytes) :
    w.inodeOn d data ino out = w.inodeOn d data' ino out := by
  unfold World.inodeOn
  rw [fetch_congr first]
  by_cases fits : w.e4.inOneBlock ino
  · simp only [fits, if_true]
  · simp only [fits, if_false, fetch_congr (second fits)]

theorem mapsTo_flat {inode : Bytes} (depth : Eh.depth inode Ino.root = 0) (data data' : Bytes)
    (i : Nat) :
    w.mapsTo d data inode i = w.mapsTo d data' inode i := by
  simp only [World.mapsTo, depth, World.descends]

theorem log_congr {jin : Bytes} {i : Nat} (depth : Eh.depth jin Ino.root = 0)
    (same : ∀ phys, w.mapsTo d data jin i = some phys → w.SameAt data data' phys) :
    w.log d data jin i = w.log d data' jin i := by
  unfold World.log
  rw [mapsTo_flat depth data' data]
  cases hphys : w.mapsTo d data jin i with
  | none => rfl
  | some phys =>
    dsimp only
    rw [fetch_congr (same phys hphys)]

theorem writeBlock_sameAt (sound : Sound w d) {b : Nat} {write : Write}
    (small : b < 562949953421312) (apart : write.1 ≠ b) :
    w.SameAt (writeBlock w.e4.blockSize data write) data b := by
  intro p hlo hhi
  rw [sound.lba_eq small] at hlo hhi
  have hpos := sound.blockSize_pos
  have hblock : p / w.e4.blockSize = b := by
    rw [Nat.div_eq_iff hpos]
    constructor
    · exact hlo
    · omega
  rw [writeBlock_at hpos, if_neg (by rw [hblock]; exact apart)]

/-! ## The passes -/

theorem scanLog_congr (e4 : Ext4Fs) {log log' : Nat → Option Bytes} (more i : Nat) (s : Scan)
    (same : ∀ k, i ≤ k → k < i + more → log k = log' k) :
    scanLog e4 log more i s = scanLog e4 log' more i s := by
  induction more generalizing i s with
  | zero => rfl
  | succ more ih =>
    rw [scanLog, same i (Nat.le_refl _) (by omega)]
    exact ih (i + 1) _ fun k hlo hhi => same k (by omega) (by omega)

/-- Writes to the blocks of `ok` leave the log from `first` on as it is. -/
def Pass.Stable (p : Pass) (first : Nat) (ok : Nat → Prop) : Prop :=
  ∀ data write i, ok write.1 → first ≤ i → i < p.cap →
    p.log (writeBlock p.bs data write) i = p.log data i

/-- The log in another state of the disk. -/
def Pass.withLog (p : Pass) (log : Bytes → Nat → Option Bytes) : Pass := { p with log := log }

section congr

variable {p : Pass} {log : Bytes → Nat → Option Bytes} {first : Nat} {ok : Nat → Prop}

theorem Pass.Stable.writeAll (stable : p.Stable first ok) {ws : List Write}
    (oks : ∀ write ∈ ws, ok write.1) (data : Bytes) {i : Nat} (hlo : first ≤ i) (hhi : i < p.cap) :
    p.log (writeAll p.bs ws data) i = p.log data i := by
  induction ws generalizing data with
  | nil => rfl
  | cons write rest ih =>
    rw [writeAll_cons, ih (fun v hv => oks v (List.mem_cons_of_mem _ hv)),
      stable data write i (oks write List.mem_cons_self) hlo hhi]

theorem Pass.tags_congr (stable : p.Stable first ok) (stable' : (p.withLog log).Stable first ok)
    (buf : Bytes) (more : Nat) {c : Nat} (off : Nat) (hc : first ≤ c)
    (same : ∀ i, first ≤ i → i < p.cap → p.log data i = log data' i)
    (oks : ∀ write ∈ (p.tags buf more c off data).2, ok write.1) :
    (p.withLog log).tags buf more c off data' = p.tags buf more c off data := by
  induction more generalizing c off data data' with
  | zero => rfl
  | succ more ih =>
    have hstops : (p.withLog log).stops buf c off ↔ p.stops buf c off := Iff.rfl
    rw [Pass.tags] at oks
    rw [Pass.tags, Pass.tags]
    by_cases stops : p.stops buf c off
    · rw [if_pos stops, if_pos (hstops.mpr stops)]
    · have hcap : c < p.cap := Nat.lt_of_not_le fun h => stops (Or.inl (Or.inr h))
      have hread : (p.withLog log).log data' c = p.log data c := (same c hc hcap).symm
      rw [if_neg stops] at oks
      rw [if_neg stops, if_neg (mt hstops.mp stops), hread]
      cases hlog : p.log data c with
      | none => rfl
      | some content =>
        rw [hlog] at oks
        dsimp only at oks ⊢
        by_cases revoked : bitAt p.rev (getBE32 buf off)
        · have hrev : bitAt (p.withLog log).rev (getBE32 buf off) := revoked
          rw [if_pos revoked] at oks
          rw [if_pos revoked, if_pos hrev]
          exact ih (off + p.tagsz) (Nat.le_succ_of_le hc) same oks
        · have hrev : ¬ bitAt (p.withLog log).rev (getBE32 buf off) := revoked
          rw [if_neg revoked] at oks
          rw [if_neg revoked, if_neg hrev]
          by_cases lands : p.lands (getBE32 buf off)
          · have hlands : (p.withLog log).lands (getBE32 buf off) := lands
            rw [if_pos lands] at oks
            rw [if_pos lands, if_pos hlands]
            have hok : ok (tagWrite buf off content).1 := oks _ List.mem_cons_self
            have hsame : ∀ i, first ≤ i → i < p.cap →
                p.log (writeBlock p.bs data (tagWrite buf off content)) i =
                  log (writeBlock p.bs data' (tagWrite buf off content)) i := by
              intro i hlo hhi
              rw [stable data _ i hok hlo hhi, same i hlo hhi]
              exact (stable' data' _ i hok hlo hhi).symm
            have hrest := ih (off + p.tagsz) (Nat.le_succ_of_le hc) hsame
              fun write hmem => oks write (List.mem_cons_of_mem _ hmem)
            exact congrArg (fun t => (t.1, tagWrite buf off content :: t.2)) hrest
          · have hlands : ¬ (p.withLog log).lands (getBE32 buf off) := lands
            rw [if_neg lands, if_neg hlands]

theorem Pass.tags_next (buf : Bytes) (more c off : Nat) (data : Bytes) :
    c ≤ (p.tags buf more c off data).1 := by
  induction more generalizing c off data with
  | zero => exact Nat.le_refl c
  | succ more ih =>
    rw [Pass.tags]
    split
    · exact Nat.le_refl c
    · split
      · exact Nat.le_refl c
      · split
        · exact Nat.le_of_succ_le (ih _ _ _)
        · split
          · exact Nat.le_of_succ_le (ih _ _ _)
          · exact Nat.le_refl c

theorem Pass.blocks_congr (stable : p.Stable first ok) (stable' : (p.withLog log).Stable first ok)
    (more : Nat) {i : Nat} (hi : first ≤ i)
    (same : ∀ k, first ≤ k → k < p.cap → p.log data k = log data' k)
    (oks : ∀ write ∈ p.blocks more i data, ok write.1) :
    (p.withLog log).blocks more i data' = p.blocks more i data := by
  induction more generalizing i data data' with
  | zero => rfl
  | succ more ih =>
    rw [Pass.blocks] at oks
    rw [Pass.blocks, Pass.blocks]
    by_cases past : p.cap ≤ i
    · have hpast : (p.withLog log).cap ≤ i := past
      rw [if_pos past, if_pos hpast]
    · have hpast : ¬ (p.withLog log).cap ≤ i := past
      have hread : (p.withLog log).log data' i = p.log data i :=
        (same i hi (Nat.lt_of_not_le past)).symm
      rw [if_neg past] at oks
      rw [if_neg past, if_neg hpast, hread]
      cases hlog : p.log data i with
      | none =>
        rw [hlog] at oks
        exact ih (Nat.le_succ_of_le hi) same oks
      | some buf =>
        rw [hlog] at oks
        dsimp only at oks ⊢
        by_cases describes : p.describes buf
        · have hdescribes : (p.withLog log).describes buf := describes
          rw [if_pos describes] at oks
          rw [if_pos describes, if_pos hdescribes]
          have htags : (p.withLog log).tags buf p.bs (i + 1) 12 data' =
              p.tags buf p.bs (i + 1) 12 data :=
            Pass.tags_congr stable stable' buf p.bs 12 (Nat.le_succ_of_le hi) same
              fun write hmem => oks write (List.mem_append_left _ hmem)
          have hoks : ∀ write ∈ (p.tags buf p.bs (i + 1) 12 data).2, ok write.1 := fun write hmem =>
            oks write (List.mem_append_left _ hmem)
          have hsame : ∀ k, first ≤ k → k < p.cap →
              p.log (writeAll p.bs (p.tags buf p.bs (i + 1) 12 data).2 data) k =
                log (writeAll p.bs (p.tags buf p.bs (i + 1) 12 data).2 data') k := by
            intro k hlo hhi
            rw [stable.writeAll hoks data hlo hhi, same k hlo hhi]
            exact (stable'.writeAll hoks data' hlo hhi).symm
          have hnext := Pass.tags_next (p := p) buf p.bs (i + 1) 12 data
          have hrest := ih (Nat.le_trans (Nat.le_succ_of_le hi) hnext) hsame
            fun write hmem => oks write (List.mem_append_right _ hmem)
          show ((p.withLog log).tags buf p.bs (i + 1) 12 data').2 ++
            (p.withLog log).blocks more ((p.withLog log).tags buf p.bs (i + 1) 12 data').1
              (writeAll p.bs ((p.withLog log).tags buf p.bs (i + 1) 12 data').2 data') = _
          rw [htags, hrest]
        · have hdescribes : ¬ (p.withLog log).describes buf := describes
          rw [if_neg describes] at oks
          rw [if_neg describes, if_neg hdescribes]
          exact ih (Nat.le_succ_of_le hi) same oks

end congr

end Obsidian.Fs
