import Obsidian.Fs.DirLookup
import Obsidian.Lib.Runs
import Obsidian.Lib.Slotted

/-!
# Directory blocks

The octets of a directory block spell a page of slots. The three walks of fs/ext4_fsops.c along
a block (presenting the entries, looking for room, looking for a name) are walks along the
slots, and what the driver writes into the block places an entry or vacates its slot.
-/
namespace Obsidian.Fs
open Lib Lib.Bytes Lib.Slotted

abbrev DirSlot : Type := Slot DirEntry

/-- What an entry needs of a block. -/
def DirEntry.need (e : DirEntry) : Nat := direntLen e.name.length

theorem DirEntry.units (e : DirEntry) : 4 ∣ e.need := Nat.dvd_mul_left 4 _

/-- An entry that may be live. -/
structure DirEntry.Ok (inodes : Nat) (e : DirEntry) : Prop where
  named : 1 ≤ e.name.length
  short : e.name.length ≤ 255
  low : 1 ≤ e.ino
  high : e.ino ≤ inodes
  type : e.type < 256

theorem DirEntry.Ok.long {inodes : Nat} {e : DirEntry} (ok : e.Ok inodes) : 12 ≤ e.need := by
  have := ok.named
  unfold DirEntry.need direntLen
  omega

theorem DirEntry.name_le (e : DirEntry) : 8 + e.name.length ≤ e.need := by
  unfold DirEntry.need direntLen
  omega

/-- The slot at `d` of a block. -/
def SlotAt (blk : Bytes) (d : Nat) (s : DirSlot) : Prop :=
  De.recLen blk d = s.len ∧
    match s.item with
    | none => De.inode blk d = 0
    | some e => De.inode blk d = e.ino ∧ De.name blk d = e.name ∧ De.fileType blk d = e.type

/-- The slots from `d` on. -/
def Laid (blk : Bytes) : Nat → List DirSlot → Prop
  | _, [] => True
  | d, s :: rest => SlotAt blk d s ∧ Laid blk (d + s.len) rest

structure SlotOk (inodes : Nat) (s : DirSlot) : Prop where
  fits : s.Fits DirEntry.need 4 12
  entry : ∀ e, s.item = some e → e.Ok inodes

/-- A directory block of `size` octets, cut into slots from `d` to its end. -/
structure BlockOk (size inodes : Nat) (blk : Bytes) (d : Nat) (slots : List DirSlot) : Prop where
  laid : Laid blk d slots
  stop : d + total slots = size
  ok : ∀ s ∈ slots, SlotOk inodes s

variable {blk blk' : Bytes} {d size inodes : Nat} {s : DirSlot}
    {slots rest front back : List DirSlot}
  {e4 : Ext4Fs} {e : DirEntry} {κ : Type}

theorem laid_append :
    Laid blk d (front ++ back) ↔ Laid blk d front ∧ Laid blk (d + total front) back := by
  induction front generalizing d with
  | nil => simp [Laid]
  | cons s front ih => simp [Laid, ih, and_assoc, Nat.add_assoc]

section
variable (at' : SlotAt blk d s)
include at'

theorem SlotAt.empty (none : s.item = none) : De.inode blk d = 0 := by
  unfold SlotAt at at'
  simp only [none] at at'
  exact at'.2

theorem SlotAt.entry (holds : s.item = some e) :
    De.inode blk d = e.ino ∧ De.name blk d = e.name ∧ De.fileType blk d = e.type := by
  unfold SlotAt at at'
  simp only [holds] at at'
  exact at'.2

theorem SlotAt.nameLen (holds : s.item = some e) : De.nameLen blk d = e.name.length := by
  have hname := (at'.entry holds).2.1
  rw [← hname]
  simp [De.name]

theorem SlotAt.shorten (holds : s.item = some e) {keep : Nat} (hlen : De.recLen blk' d = keep)
    (first : Agree blk' blk d (d + 4)) (rest : Agree blk' blk (d + 6) (d + 8 + e.name.length)) :
    SlotAt blk' d ⟨keep, some e⟩ := by
  obtain ⟨ino, name, type⟩ := at'.entry holds
  have hnl : De.nameLen blk' d = De.nameLen blk d :=
    get8_congr (rest.mono (Nat.le_refl _) (by omega))
  refine ⟨hlen, (get32_congr first).trans ino, ?_,
    (get8_congr (rest.mono (by omega) (by omega))).trans type⟩
  rw [← name, De.name, De.name, hnl, at'.nameLen holds]
  exact toList_congr fun k hk => rest _ (by omega) (by omega)

theorem SlotAt.congr (fits : s.Fits DirEntry.need 4 12) (agree : Agree blk' blk d (d + s.len)) :
    SlotAt blk' d s := by
  have hlong := fits.long
  have hlen : De.recLen blk' d = De.recLen blk d := get16_congr (agree.mono (by omega) (by omega))
  obtain ⟨len, item⟩ := s
  cases item with
  | none => exact ⟨hlen.trans at'.1,
      (get32_congr (agree.mono (Nat.le_refl _) (by omega))).trans at'.2⟩
  | some e =>
    have hroom := (fits.holds e rfl).2
    have hname := e.name_le
    exact at'.shorten rfl (hlen.trans at'.1) (agree.mono (Nat.le_refl _) (by omega))
      (agree.mono (by omega) (by omega))

end

theorem Laid.congr (laid : Laid blk d slots) (fits : ∀ s ∈ slots, s.Fits DirEntry.need 4 12)
    (agree : Agree blk' blk d (d + total slots)) : Laid blk' d slots := by
  induction slots generalizing d with
  | nil => trivial
  | cons s rest ih =>
    simp only [total_cons] at agree
    constructor
    · exact laid.1.congr (fits s (by simp)) (agree.mono (Nat.le_refl _) (by omega))
    · exact ih laid.2 (fun t member => fits t (by simp [member])) (agree.mono (by omega) (by omega))

/-! ## Walking along the slots -/

/-- One turn of a walk: the tests it makes at an entry, and what is left for it. -/
theorem BlockOk.turn (block : BlockOk size inodes blk d (s :: rest)) :
    SlotAt blk d s ∧ SlotOk inodes s ∧
      ¬ size < d + 8 ∧
      ¬ (De.recLen blk d = 0 ∨ De.recLen blk d &&& 3 ≠ 0 ∨ size < d + De.recLen blk d) ∧
      BlockOk size inodes blk (d + s.len) rest := by
  obtain ⟨⟨at', later⟩, stop, ok⟩ := block
  have here := ok s (by simp)
  have hlong := here.fits.long
  have hmask : De.recLen blk d &&& 3 = De.recLen blk d % 4 := Nat.and_two_pow_sub_one_eq_mod _ 2
  have hunits := Nat.mod_eq_zero_of_dvd here.fits.units
  simp only [total_cons] at stop
  rw [hmask, at'.1]
  exact ⟨at', here, by omega, by omega, later, by omega, fun t member => ok t (by simp [member])⟩

theorem BlockOk.at_end (block : BlockOk size inodes blk size slots) : slots = [] := by
  cases slots with
  | nil => rfl
  | cons s rest =>
    have outside := block.turn.2.2.1
    omega

variable {child fuel j keep nd p type : Nat} {name : List UInt8}

theorem scan_laid (block : BlockOk e4.blockSize e4.inodesCount blk d slots) (cb : DirCb κ)
    (enough : total slots ≤ fuel) (ctx : κ) :
    scanDirentBlock e4 blk cb fuel d ctx = runCb cb (items slots) ctx := by
  induction slots generalizing d fuel ctx with
  | nil =>
    have stop : d = e4.blockSize := block.stop
    cases fuel with
    | zero => rfl
    | succ fuel =>
      simp only [scanDirentBlock]
      rw [if_pos (by omega)]
      rfl
  | cons s rest ih =>
    obtain ⟨at', here, fits, sane, later⟩ := block.turn
    have hlong := here.fits.long
    simp only [total_cons] at enough
    obtain ⟨fuel, rfl⟩ : ∃ k, fuel = k + 1 := ⟨fuel - 1, by omega⟩
    have next := ih later (by omega : total rest ≤ fuel)
    simp only [scanDirentBlock]
    rw [if_neg fits, if_neg sane, at'.1]
    cases h : s.item with
    | none =>
      have hino := at'.empty h
      rw [items_cons, h, Option.toList_none, List.nil_append]
      by_cases fake : s.len = e4.blockSize ∧ De.nameLen blk d = 0
      · -- An empty slot as long as the block is its only slot.
        have stop := later.stop
        have hend : d + s.len = e4.blockSize := by omega
        rw [hend] at later
        rw [if_pos fake, later.at_end]
        rfl
      · rw [if_neg fake, if_pos hino, next]
    | some e =>
      obtain ⟨hino, hname, htype⟩ := at'.entry h
      have hnl := at'.nameLen h
      have entry := here.entry e h
      have hroom := (here.fits.holds e h).2
      have hneed := e.name_le
      have named := entry.named
      have low := entry.low
      have high := entry.high
      rw [items_cons, h, Option.toList_some, List.singleton_append, runCb, hino, hname, htype,
        if_neg (by omega), if_neg (by omega), if_neg (by omega)]
      split
      · rfl
      · exact next _

theorem SlotAt.minimal (at' : SlotAt blk d s) (ok : SlotOk inodes s) :
    (if De.inode blk d ≠ 0 ∧
      ¬ (s.len = size ∧ De.nameLen blk d = 0) then direntLen (De.nameLen blk d) else 0) =
      s.held DirEntry.need := by
  cases h : s.item with
  | none =>
    have hino := at'.empty h
    simp [hino, Slot.held, h]
  | some e =>
    have entry := ok.entry e h
    have low := entry.low
    have named := entry.named
    rw [at'.nameLen h, (at'.entry h).1, if_pos ⟨by omega, by omega⟩]
    simp [Slot.held, h, DirEntry.need]

theorem findRoom_laid (block : BlockOk e4.blockSize inodes blk d slots) {need : Nat}
    (found : findRoom e4 blk need fuel d = some (p, keep)) :
    ∃ front s back, slots = front ++ s :: back ∧ p = d + total front ∧ keep = s.held DirEntry.need ∧
      need ≤ s.len - s.held DirEntry.need := by
  induction slots generalizing d fuel with
  | nil =>
    have stop : d = e4.blockSize := block.stop
    cases fuel with
    | zero => cases found
    | succ fuel =>
      simp only [findRoom] at found
      rw [if_pos (by omega)] at found
      cases found
  | cons s rest ih =>
    obtain ⟨at', here, fits, sane, later⟩ := block.turn
    have hlen : s.len < 65536 := by
      rw [← at'.1]
      exact get16_lt _ _
    have hheld := here.fits.held_le
    cases fuel with
    | zero => cases found
    | succ fuel =>
      simp only [findRoom] at found
      rw [if_neg fits, if_neg sane, at'.1, at'.minimal here, sub32_of_le (by omega) hheld] at found
      by_cases room : need ≤ s.len - s.held DirEntry.need
      · rw [if_pos room] at found
        cases found
        exact ⟨[], s, rest, rfl, rfl, rfl, room⟩
      · rw [if_neg room] at found
        obtain ⟨front, t, back, rfl, rfl, rfl, room⟩ := ih later found
        exact ⟨s :: front, t, back, rfl, by simp [Nat.add_assoc], rfl, room⟩

theorem SlotAt.named_iff (at' : SlotAt blk d s) (ok : SlotOk inodes s) :
    De.inode blk d ≠ 0 ∧ De.nameLen blk d = name.length ∧ De.name blk d = name ↔
      ∃ e, s.item = some e ∧ e.name = name := by
  cases h : s.item with
  | none => simp [at'.empty h]
  | some e =>
    have low := (ok.entry e h).low
    rw [at'.nameLen h, (at'.entry h).1, (at'.entry h).2.1]
    constructor
    · exact fun hit => ⟨e, rfl, hit.2.2⟩
    · rintro ⟨x, same, rfl⟩
      cases same
      exact ⟨by omega, rfl, rfl⟩

/-- A walk for a name ends at the slot of an entry of that name, or there is none. -/
theorem findNamed_laid (block : BlockOk e4.blockSize inodes blk d slots) (name : List UInt8)
    (enough : total slots ≤ fuel) :
    match findNamed e4 blk name fuel d with
    | some p => ∃ front s back e, slots = front ++ s :: back ∧ p = d + total front ∧
    s.item = some e ∧ e.name = name | none => ∀ e ∈ items slots, e.name ≠ name := by
  induction slots generalizing d fuel with
  | nil =>
    have stop : d = e4.blockSize := block.stop
    cases fuel with
    | zero => simp [findNamed]
    | succ fuel =>
      simp only [findNamed]
      rw [if_pos (by omega)]
      simp
  | cons s rest ih =>
    obtain ⟨at', here, fits, sane, later⟩ := block.turn
    have hlong := here.fits.long
    simp only [total_cons] at enough
    obtain ⟨fuel, rfl⟩ : ∃ k, fuel = k + 1 := ⟨fuel - 1, by omega⟩
    have next := ih later (by omega : total rest ≤ fuel)
    simp only [findNamed]
    rw [if_neg fits, if_neg sane, at'.1]
    by_cases hit : De.inode blk d ≠ 0 ∧ De.nameLen blk d = name.length ∧ De.name blk d = name
    · rw [if_pos hit]
      obtain ⟨e, held, same⟩ := (at'.named_iff here).mp hit
      exact ⟨[], s, rest, e, rfl, rfl, held, same⟩
    · rw [if_neg hit]
      cases hfind : findNamed e4 blk name fuel (d + s.len) with
      | some p =>
        rw [hfind] at next
        obtain ⟨front, t, back, e, rfl, rfl, held, same⟩ := next
        exact ⟨s :: front, t, back, e, rfl, by simp [Nat.add_assoc], held, same⟩
      | none =>
        rw [hfind] at next
        intro e member
        rw [items_cons, List.mem_append, Option.mem_toList] at member
        rcases member with held | later
        · exact fun same => hit ((at'.named_iff here).mpr ⟨e, held, same⟩)
        · exact next e later

/-! ## Writing an entry -/

theorem putEntry_outside (outside : j < nd ∨ (nd + 4 ≤ j ∧ j < nd + 6) ∨ nd + 8 + name.length ≤ j) :
    putEntry blk nd child type name j = blk j := by
  unfold putEntry De.putName De.putFileType De.putNameLen De.putInode
  rw [ofList_outside _ (by omega)]
  have htype := put8_agree (put8 (put32 blk nd child) (nd + 6) name.length) (nd + 7) type j
    (j + 1) (by omega)
  have hnl := put8_agree (put32 blk nd child) (nd + 6) name.length j (j + 1) (by omega)
  rw [htype j (by omega) (by omega), hnl j (by omega) (by omega), put32_outside _ _ (by omega)]

theorem putEntry_slot {len : Nat} (hlen : De.recLen blk nd = len) (ok : e.Ok inodes)
    (small : inodes < 4294967296) :
    SlotAt (putEntry blk nd e.ino e.type e.name) nd ⟨len, some e⟩ := by
  have hshort := ok.short
  have hhigh := ok.high
  have htype := ok.type
  generalize hput : put8 (put8 (put32 blk nd e.ino) (nd + 6) e.name.length) (nd + 7) e.type = b
  have hentry : putEntry blk nd e.ino e.type e.name = ofList b (nd + 8) e.name := by
    rw [← hput]
    rfl
  have hname : Agree (ofList b (nd + 8) e.name) b nd (nd + 8) :=
    fun j _ _ => ofList_outside b (by omega)
  have hnl : De.nameLen (putEntry blk nd e.ino e.type e.name) nd = e.name.length := by
    unfold De.nameLen
    rw [hentry, get8_congr (hname.mono (by omega) (by omega)), ← hput,
      get8_put8_ne _ _ _ _ (by omega), get8_put8]
    omega
  refine ⟨?_, ?_, ?_, ?_⟩
  · rw [← hlen]
    exact get16_congr fun j lo hi => putEntry_outside (by omega)
  · unfold De.inode
    rw [hentry, get32_congr (hname.mono (by omega) (by omega)), ← hput,
      get32_congr (put8_agree _ (nd + 7) _ nd (nd + 4) (by omega)),
      get32_congr (put8_agree _ (nd + 6) _ nd (nd + 4) (by omega)), get32_put32]
    omega
  · unfold De.name
    rw [hnl]
    exact toList_ofList _ _ _
  · unfold De.fileType
    rw [hentry, get8_congr (hname.mono (by omega) (by omega)), ← hput, get8_put8]
    omega

theorem squeeze_outside (length : j < p + 4 ∨ p + 6 ≤ j)
    (entry : j < p + keep ∨ p + keep + 8 + name.length ≤ j) :
    squeeze blk p keep child type name j = blk j := by
  unfold squeeze De.putRecLen
  have first := fun v => put16_agree blk (p + 4) v j (j + 1) (by omega) j (by omega) (by omega)
  have second := fun (b : Bytes) v => put16_agree b (p + keep + 4) v j (j + 1) (by omega) j
    (by omega) (by omega)
  rw [putEntry_outside (by omega), second, first]

theorem mem_items : e ∈ items slots ↔ ∃ s ∈ slots, s.item = some e := List.mem_filterMap

theorem SlotAt.squeezed (at' : SlotAt blk d s) (ok : SlotOk inodes s) (new : e.Ok inodes)
    (small : inodes < 4294967296) :
    Laid (squeeze blk d (s.held DirEntry.need) e.ino e.type e.name) d
    (s.split DirEntry.need e) := by
  have hlen : s.len < 65536 := by
    rw [← at'.1]
    exact get16_lt _ _
  have hheld := ok.fits.held_le
  have hrest : u16 (sub32 (De.recLen blk d) (s.held DirEntry.need)) =
      s.len - s.held DirEntry.need := by
    rw [at'.1, sub32_of_le (by omega) hheld, u16_of_lt (by omega)]
  -- The new entry follows what the slot keeps, whatever that is.
  have behind : SlotAt (squeeze blk d (s.held DirEntry.need) e.ino e.type e.name)
    (d + s.held DirEntry.need)
      ⟨s.len - s.held DirEntry.need, some e⟩ := by
    apply putEntry_slot _ new small
    rw [hrest]
    unfold De.recLen De.putRecLen
    rw [get16_put16]
    omega
  unfold Slot.split
  cases h : s.item with
  | none =>
    have hzero : s.held DirEntry.need = 0 := by simp [Slot.held, h]
    rw [hzero] at behind ⊢
    exact ⟨behind, trivial⟩
  | some b =>
    have hkeep : s.held DirEntry.need = b.need := by simp [Slot.held, h]
    have hname := b.name_le
    rw [hkeep] at behind hheld ⊢
    refine ⟨at'.shorten h ?_ (fun j lo hi => squeeze_outside (by omega) (by omega))
      (fun j lo hi => squeeze_outside (by omega) (by omega)), behind, trivial⟩
    have frame : Agree (squeeze blk d b.need e.ino e.type e.name) (De.putRecLen blk d b.need)
        (d + 4) (d + 6) := by
      intro j lo hi
      unfold squeeze De.putRecLen
      rw [putEntry_outside (by omega)]
      exact put16_agree _ _ _ j (j + 1) (by omega) j (by omega) (by omega)
    unfold De.recLen
    rw [get16_congr frame]
    unfold De.putRecLen
    rw [get16_put16]
    omega

/-- A slot gives way to slots of its length, in a block that is the same around it. -/
theorem BlockOk.replace {m : List DirSlot} (block : BlockOk size inodes blk 0 (front ++ s :: back))
    (same : total m = s.len) (laid : SlotAt blk (total front) s → Laid blk' (total front) m)
    (outside : ∀ j, j < total front ∨ total front + s.len ≤ j → blk' j = blk j)
    (ok : ∀ t ∈ m, SlotOk inodes t) :
    BlockOk size inodes blk' 0 (front ++ (m ++ back)) := by
  obtain ⟨inFront, at', inBack⟩ := laid_append.mp block.laid
  have stop := block.stop
  simp only [Nat.zero_add, total_append, total_cons] at at' inBack stop
  have inFront' : ∀ t ∈ front, SlotOk inodes t := fun t member => block.ok t (by simp [member])
  have inBack' : ∀ t ∈ back, SlotOk inodes t := fun t member => block.ok t (by simp [member])
  refine ⟨?_, by simp only [total_append]; omega, ?_⟩
  · rw [laid_append, laid_append, same, Nat.zero_add]
    refine ⟨inFront.congr (fun t member => (inFront' t member).fits) fun j _ hi =>
      outside j (by omega), laid at', ?_⟩
    exact inBack.congr (fun t member => (inBack' t member).fits) fun j lo _ => outside j (by omega)
  · simp only [List.forall_mem_append]
    exact ⟨inFront', ok, inBack'⟩

theorem BlockOk.squeeze (block : BlockOk size inodes blk 0 (front ++ s :: back)) (new : e.Ok inodes)
    (small : inodes < 4294967296) (room : e.need ≤ s.len - s.held DirEntry.need) :
    BlockOk size inodes (squeeze blk (total front) (s.held DirEntry.need) e.ino e.type e.name) 0
      (front ++ (s.split DirEntry.need e ++ back)) := by
  have here := block.ok s (by simp)
  have hlong := here.fits.long
  have hname := e.name_le
  have hheld := here.fits.held_le
  refine block.replace (Slot.total_split hheld e) (fun at' => at'.squeezed here new small)
    (fun j around => squeeze_outside (by omega) (by omega)) fun t member => ?_
  refine ⟨here.fits.split DirEntry.units new.long room t member, fun x held => ?_⟩
  have inside : x ∈ items (s.split DirEntry.need e) := mem_items.mpr ⟨t, member, held⟩
  rw [Slot.items_split, List.mem_append, Option.mem_toList, List.mem_singleton] at inside
  rcases inside with old | rfl
  · exact here.entry x old
  · exact new

theorem BlockOk.vacate (block : BlockOk size inodes blk 0 (front ++ s :: back)) :
    BlockOk size inodes (De.putInode blk (total front) 0) 0 (front ++ ⟨s.len, none⟩ :: back) := by
  have here := (block.ok s (by simp)).fits
  have hlong := here.long
  have outside : ∀ j, j < total front ∨
      total front + 4 ≤ j → De.putInode blk (total front) 0 j = blk j :=
    fun j h => put32_outside blk 0 h
  refine block.replace (m := [⟨s.len, none⟩]) rfl (fun at' =>
    ⟨⟨?_, get32_put32 blk (total front) 0⟩, trivial⟩)
    (fun j around => outside j (by omega)) ?_
  · rw [← at'.1]
    exact get16_congr fun j lo hi => outside j (by omega)
  · intro t member
    obtain rfl := List.mem_singleton.mp member
    exact ⟨⟨here.units, hlong, by simp⟩, by simp⟩

theorem freshDirBlock_ok (buf : Bytes) (bare : e4.metaCsum = false) (units : 4 ∣ e4.blockSize)
    (large : 512 ≤ e4.blockSize) (small : e4.blockSize < 65536) (new : e.Ok inodes)
    (few : inodes < 4294967296) :
    BlockOk e4.blockSize inodes (freshDirBlock e4 buf e.ino e.type e.name) 0
    [⟨e4.blockSize, some e⟩] := by
  have hshort := new.short
  have hneed : e.need ≤ e4.blockSize := by
    unfold DirEntry.need direntLen
    omega
  have hfresh : freshDirBlock e4 buf e.ino e.type e.name =
      putEntry (De.putRecLen (fill buf 0 e4.blockSize 0) 0 e4.blockSize) 0 e.ino e.type e.name := by
    simp [freshDirBlock, bare, u16_of_lt small]
  rw [hfresh]
  refine ⟨⟨putEntry_slot ?_ new few, trivial⟩, by simp, ?_⟩
  · unfold De.recLen De.putRecLen
    rw [get16_put16]
    omega
  · rw [List.forall_mem_singleton]
    refine ⟨⟨units, by simp only; omega, fun b same => ?_⟩, fun b same => ?_⟩
    · cases same
      exact ⟨new.long, hneed⟩
    · cases same
      exact new

/-! ## The block as a store -/

inductive DirOp where
  | add (e : DirEntry)
  | remove (name : List UInt8)

/-- What `e4_dir_add_entry` (its first pass) and `e4_dir_remove_entry` do to a block they stop at.
-/
def dirStep (e4 : Ext4Fs) (blk : Bytes) : DirOp → Option Bytes
  | .add e => (findRoom e4 blk (direntLen e.name.length) e4.blockSize 0).map fun r =>
      squeeze blk r.1 r.2 e.ino e.type e.name
  | .remove name => (findNamed e4 blk name e4.blockSize 0).map fun d => De.putInode blk d 0

/-- The callers add no name twice. -/
def DirOp.Admitted (e4 : Ext4Fs) (blk : Bytes) : DirOp → Prop
  | .add e => e.Ok e4.inodesCount ∧ findNamed e4 blk e.name e4.blockSize 0 = none
  | .remove _ => True

/-- The same on the entries alone. -/
def DirOp.apply (entries : List DirEntry) : DirOp → List DirEntry
  | .add e => e :: entries
  | .remove name => entries.filter fun x => x.name ≠ name

/-- The block holds these entries, in some order, and no name twice. -/
def Holds (e4 : Ext4Fs) (blk : Bytes) (entries : List DirEntry) : Prop :=
  (entries.map DirEntry.name).Nodup ∧ ∃ slots, BlockOk e4.blockSize e4.inodesCount blk 0 slots ∧
    (items slots).Perm entries

variable {entries : List DirEntry} {ops : List DirOp}

theorem Holds.absent_iff (holds : Holds e4 blk entries) (n : List UInt8) :
    findNamed e4 blk n e4.blockSize 0 = none ↔ ∀ x ∈ entries, x.name ≠ n := by
  obtain ⟨-, slots, block, perm⟩ := holds
  have search := findNamed_laid block n (block.stop ▸ Nat.le_add_left _ 0)
  cases found : findNamed e4 blk n e4.blockSize 0 with
  | none =>
    rw [found] at search
    exact iff_of_true rfl fun x member => search x (perm.mem_iff.mpr member)
  | some p =>
    rw [found] at search
    obtain ⟨front, s, back, x, rfl, -, held, same⟩ := search
    refine iff_of_false (Option.some_ne_none p) fun none => none x (perm.mem_iff.mp ?_) same
    exact mem_items.mpr ⟨s, by simp, held⟩

section
variable (few : e4.inodesCount < 4294967296)
include few

theorem Holds.step {op : DirOp} (holds : Holds e4 blk entries) (admitted : op.Admitted e4 blk)
    (returned : dirStep e4 blk op = some blk') : Holds e4 blk' (op.apply entries) := by
  have search := holds.absent_iff
  obtain ⟨distinct, slots, block, perm⟩ := holds
  cases op with
  | add e =>
    obtain ⟨r, found, rfl⟩ := Option.map_eq_some_iff.mp returned
    obtain ⟨front, s, back, rfl, place, keeps, room⟩ := findRoom_laid block found
    rw [place, keeps, Nat.zero_add]
    refine ⟨?_, _, block.squeeze admitted.1 few room, items_placed.trans (perm.cons e)⟩
    rw [DirOp.apply, List.map_cons, List.nodup_cons]
    refine ⟨fun member => ?_, distinct⟩
    obtain ⟨x, inside, same⟩ := List.mem_map.mp member
    exact (search e.name).mp admitted.2 x inside same
  | remove name =>
    obtain ⟨p, found, rfl⟩ := Option.map_eq_some_iff.mp returned
    have hit := findNamed_laid block name (block.stop ▸ Nat.le_add_left _ 0)
    rw [found] at hit
    obtain ⟨front, s, back, e, rfl, rfl, held, rfl⟩ := hit
    have old := (items_vacated held).symm.trans perm
    -- no other entry has the name, so that the filter takes out this one only
    have unique := (old.map DirEntry.name).nodup_iff.mpr distinct
    rw [List.map_cons, List.nodup_cons, List.mem_map] at unique
    have rest := old.filter fun x => x.name ≠ e.name
    rw [List.filter_cons_of_neg (by simp), List.filter_eq_self.mpr] at rest
    · rw [Nat.zero_add]
      exact ⟨distinct.sublist (List.filter_sublist.map _), _, block.vacate, rest⟩
    · intro x inside
      exact decide_eq_true fun same => unique.1 ⟨x, inside, same⟩

theorem Holds.run (holds : Holds e4 blk entries)
    (run : Run (dirStep e4) (DirOp.Admitted e4) blk ops blk') :
    Holds e4 blk' (ops.foldl DirOp.apply entries) := by
  induction run generalizing entries with
  | done => exact holds
  | call admitted returned _ ih => exact ih (holds.step few admitted returned)

end

/-- For every run of additions and removals from a fresh block: every scan presents the entries that
the same operations leave in a list, in some order and no name twice, and a name is found when an
entry has it. -/
theorem dir_block_refines_list (buf : Bytes) (bare : e4.metaCsum = false) (units : 4 ∣ e4.blockSize)
    (large : 512 ≤ e4.blockSize) (small : e4.blockSize < 65536) (few : e4.inodesCount < 4294967296)
    (new : e.Ok e4.inodesCount)
    (run : Run (dirStep e4) (DirOp.Admitted e4)
      (freshDirBlock e4 buf e.ino e.type e.name) ops blk) :
    (∃ entries : List DirEntry, entries.Perm (ops.foldl DirOp.apply [e]) ∧
      (entries.map DirEntry.name).Nodup ∧
      ∀ (κ : Type) (cb : DirCb κ) ctx, scanDirentBlock e4 blk cb e4.blockSize 0 ctx =
      runCb cb entries ctx) ∧
    ∀ n, findNamed e4 blk n e4.blockSize 0 = none ↔ ∀ x ∈ ops.foldl DirOp.apply
    [e], x.name ≠ n := by
  have fresh : Holds e4 (freshDirBlock e4 buf e.ino e.type e.name) [e] :=
    ⟨List.nodup_singleton _, _, freshDirBlock_ok buf bare units large small new few,
      List.Perm.refl [e]⟩
  have holds := fresh.run few run
  refine ⟨?_, holds.absent_iff⟩
  obtain ⟨distinct, slots, block, perm⟩ := holds
  exact ⟨items slots, perm, (perm.map _).nodup_iff.mpr distinct,
    fun κ cb ctx => scan_laid block cb (block.stop ▸ Nat.le_add_left _ 0) ctx⟩

def bareFs : Ext4Fs := { Ext4Fs.zeroed with blockSize := 1024, inodesCount := 16 }

/-- A second name is added. -/
theorem dir_block_refines_list_two :
    findNamed bareFs (squeeze (freshDirBlock bareFs zero 12 1 [97]) 0 12 13 1 [98])
    [99] 1024 0 = none := by
  have room : findRoom bareFs (freshDirBlock bareFs zero 12 1 [97]) 12 1024 0 =
    some (0, 12) := by decide +kernel
  have run : Run (dirStep bareFs) (DirOp.Admitted bareFs) (freshDirBlock bareFs zero 12 1 [97])
    [.add ⟨[98], 13, 1⟩]
      (squeeze (freshDirBlock bareFs zero 12 1 [97]) 0 12 13 1 [98]) := by
    refine .call ⟨by constructor <;> decide, by decide +kernel⟩ ?_ (.done _)
    rw [dirStep]
    exact Option.map_eq_some_iff.mpr ⟨_, room, rfl⟩
  exact ((dir_block_refines_list (e := ⟨[97], 12, 1⟩) zero rfl (by decide) (by decide)
    (by decide) (by decide)
    (by constructor <;> decide) run).2 _).mpr (by decide)

end Obsidian.Fs
