import Obsidian.Fs.Fsops

/-!
# Directory lookup and directory iteration

`e4_dir_lookup` is built on `e4_iterate_dir` with a callback that stops the
iteration at the entry it looks for. What the iteration presents does not depend on
the callback: `presented` is the list a callback sees that never stops, and every
other callback is run along that list up to its first nonzero return.
-/
namespace Obsidian.Fs
open Lib Lib.Bytes

/-- What a callback is shown. -/
structure DirEntry where
  name : List UInt8
  ino : Nat
  type : Nat
  deriving DecidableEq, Repr

variable {κ : Type} {w w' : World}

/-- A callback that remembers every entry and never stops. -/
def collectCb : DirCb (List DirEntry) := fun name ino type seen => (0, seen ++ [⟨name, ino, type⟩])

/-- The entries `e4_iterate_dir` presents. -/
def presented (dirIno : Nat) (w : World) : List DirEntry :=
  match (e4IterateDir dirIno collectCb [] w).1 with
  | some r => r.2
  | none => []

/-- Run a callback along a list of entries up to its first nonzero return. -/
def runCb (cb : DirCb κ) : List DirEntry → κ → Int × κ
  | [], ctx => (0, ctx)
  | e :: rest, ctx =>
    let r := cb e.name e.ino e.type ctx
    if r.1 ≠ 0 then r else runCb cb rest r.2

theorem runCb_append (cb : DirCb κ) (front back : List DirEntry) (ctx : κ) :
    runCb cb (front ++ back) ctx =
      if (runCb cb front ctx).1 ≠ 0 then runCb cb front ctx else runCb cb back
      (runCb cb front ctx).2 := by
  induction front generalizing ctx with
  | nil => simp [runCb]
  | cons e rest ih =>
    rw [List.cons_append, runCb, runCb]
    by_cases stop : (cb e.name e.ino e.type ctx).1 ≠ 0
    · simp only [if_pos stop]
    · simp only [if_neg stop]
      exact ih _

/-! ## Iteration runs the callback along the presented entries -/

theorem scanDirentBlock_eq (e4 : Ext4Fs) (blk : Bytes) (fuel d : Nat) :
    ∃ entries, ∀ (κ : Type) (cb : DirCb κ) (ctx : κ), scanDirentBlock e4 blk cb fuel d ctx =
    runCb cb entries ctx := by
  induction fuel generalizing d with
  | zero => exact ⟨[], fun _ _ _ => rfl⟩
  | succ fuel ih =>
    obtain ⟨later, hlater⟩ := ih (d + De.recLen blk d)
    by_cases fits : e4.blockSize < d + 8
    · exact ⟨[], fun κ cb ctx => by simp only [scanDirentBlock, if_pos fits, runCb]⟩
    by_cases broken : De.recLen blk d = 0 ∨ De.recLen blk d &&& 3 ≠ 0 ∨
        e4.blockSize < d + De.recLen blk d
    · exact ⟨[], fun κ cb ctx => by simp only [scanDirentBlock, if_neg fits, if_pos broken, runCb]⟩
    by_cases fake : De.recLen blk d = e4.blockSize ∧ De.nameLen blk d = 0
    · exact ⟨[], fun κ cb ctx => by
        simp only [scanDirentBlock, if_neg fits, if_neg broken, if_pos fake, runCb]⟩
    by_cases unused : De.inode blk d = 0
    · exact ⟨later, fun κ cb ctx => by
        simp only [scanDirentBlock, if_neg fits, if_neg broken, if_neg fake, if_pos unused, hlater]⟩
    by_cases bad : De.nameLen blk d = 0 ∨ De.recLen blk d - 8 < De.nameLen blk d ∨
        e4.inodesCount < De.inode blk d
    · exact ⟨[], fun κ cb ctx => by
        simp only [scanDirentBlock, if_neg fits, if_neg broken, if_neg fake, if_neg unused,
          if_pos bad, runCb]⟩
    · exact ⟨⟨De.name blk d, De.inode blk d, De.fileType blk d⟩ :: later, fun κ cb ctx => by
        simp only [scanDirentBlock, if_neg fits, if_neg broken, if_neg fake, if_neg unused,
          if_neg bad, hlater, runCb]⟩

theorem runCb_collect (entries seen : List DirEntry) :
    runCb collectCb entries seen = (0, seen ++ entries) := by
  induction entries generalizing seen with
  | nil => simp [runCb]
  | cons e rest ih =>
    rw [runCb]
    simp only [collectCb, ne_eq, not_true_eq_false, if_false]
    rw [ih, List.append_assoc, List.singleton_append]

theorem iterateFrom_eq (din : Bytes) (more bi : Nat) (seen res : List DirEntry)
    (complete : (iterateFrom din collectCb more bi seen w).1 = some (0, res)) :
    ∃ entries, res = seen ++ entries ∧ ∀ (κ : Type) (cb : DirCb κ) (ctx : κ),
      (iterateFrom din cb more bi ctx w).1 = some (runCb cb entries ctx) := by
  induction more generalizing bi seen w with
  | zero =>
    simp only [iterateFrom, Cmd.pure_apply, Option.some.injEq, Prod.mk.injEq, true_and] at complete
    subst complete
    exact ⟨[], by simp, fun _ _ _ => rfl⟩
  | succ more ih =>
    simp only [iterateFrom, Cmd.attempt_bind] at complete ⊢
    cases hmap : (e4Bmap din bi w).1 with
    | none =>
      rw [hmap] at complete
      simp at complete
    | some db =>
      simp only [hmap] at complete ⊢
      by_cases hole : db = 0
      · simp only [if_pos hole] at complete ⊢
        exact ih (bi + 1) seen complete
      · simp only [if_neg hole, Cmd.attempt_bind] at complete ⊢
        cases hread : (readScratch1 db (e4Bmap din bi w).2).1 with
        | none =>
          rw [hread] at complete
          simp at complete
        | some u =>
          simp only [hread, Cmd.get_bind] at complete ⊢
          obtain ⟨here, hhere⟩ := scanDirentBlock_eq (readScratch1 db (e4Bmap din bi w).2).2.e4
            (readScratch1 db (e4Bmap din bi w).2).2.scratch1
            (readScratch1 db (e4Bmap din bi w).2).2.e4.blockSize 0
          simp only [hhere, runCb_collect, ne_eq, not_true_eq_false, if_false] at complete ⊢
          obtain ⟨later, hres, hlater⟩ := ih (bi + 1) (seen ++ here) complete
          refine ⟨here ++ later, by rw [hres, List.append_assoc], fun κ cb ctx => ?_⟩
          rw [runCb_append]
          by_cases stop : (runCb cb here ctx).1 = 0
          · simp only [stop, not_true_eq_false, if_false, hlater, ne_eq]
          · simp only [stop, not_false_eq_true, if_true, ne_eq, Cmd.pure_apply]

/-- The directory is read to its end: its inode and all its blocks can be read and mapped. -/
def Iterable (dirIno : Nat) (w : World) : Prop :=
  ((e4IterateDir dirIno collectCb [] w).1.map Prod.fst) = some 0

theorem e4IterateDir_eq {dirIno : Nat} (complete : Iterable dirIno w) (cb : DirCb κ) (ctx : κ) :
    (e4IterateDir dirIno cb ctx w).1 = some (runCb cb (presented dirIno w) ctx) := by
  unfold Iterable at complete
  unfold presented
  simp only [e4IterateDir, Cmd.get_bind, Cmd.attempt_bind] at complete ⊢
  cases hino : (e4ReadInode dirIno w.stackJunk w).1 with
  | none =>
    rw [hino] at complete
    simp at complete
  | some din =>
    simp only [hino] at complete ⊢
    by_cases file : e4IsDir din = false
    · simp [file] at complete
    · simp only [if_neg file, Cmd.get_bind] at complete ⊢
      obtain ⟨r, hr, hzero⟩ := Option.map_eq_some_iff.mp complete
      have hpair : r = (0, r.2) := by rw [← hzero]
      rw [hpair] at hr
      obtain ⟨entries, hres, hall⟩ := iterateFrom_eq din _ 0 [] r.2 hr
      rw [hr, hall]
      simp only [hres, List.nil_append]

/-! ## Lookup -/

theorem runCb_lookup (want : List UInt8) (entries : List DirEntry) (found : Nat) :
    runCb (lookupCb want) entries found =
      match entries.find? fun e => kStrcmp e.name want = 0 with
      | some e => (1, e.ino)
      | none => (0, found) := by
  induction entries with
  | nil => rfl
  | cons e rest ih =>
    rw [runCb]
    by_cases hit : kStrcmp e.name want = 0
    · simp [lookupCb, hit]
    · rw [List.find?_cons_of_neg (by simpa using hit), ← ih]
      simp [lookupCb, hit]

theorem scan_lookup_zero (e4 : Ext4Fs) (blk : Bytes) (want : List UInt8) (fuel d found : Nat)
    (unstopped : (scanDirentBlock e4 blk (lookupCb want) fuel d found).1 = 0) :
    (scanDirentBlock e4 blk (lookupCb want) fuel d found).2 = found := by
  obtain ⟨entries, hentries⟩ := scanDirentBlock_eq e4 blk fuel d
  rw [hentries, runCb_lookup] at unstopped ⊢
  split at unstopped
  · cases unstopped
  · rfl

theorem iterateFrom_lookup_zero (din : Bytes) (want : List UInt8) (more bi : Nat) (r : Int × Nat)
    (done : (iterateFrom din (lookupCb want) more bi 0 w).1 = some r) (unstopped : r.1 = 0) :
    r.2 = 0 := by
  induction more generalizing bi w with
  | zero =>
    simp only [iterateFrom, Cmd.pure_apply, Option.some.injEq] at done
    rw [← done]
  | succ more ih =>
    simp only [iterateFrom, Cmd.attempt_bind] at done
    cases hmap : (e4Bmap din bi w).1 with
    | none =>
      simp only [hmap, Cmd.pure_apply, Option.some.injEq] at done
      rw [← done]
    | some db =>
      simp only [hmap] at done
      by_cases hole : db = 0
      · simp only [if_pos hole] at done
        exact ih (bi + 1) done
      · simp only [if_neg hole, Cmd.attempt_bind] at done
        cases hread : (readScratch1 db (e4Bmap din bi w).2).1 with
        | none =>
          simp only [hread, Cmd.pure_apply, Option.some.injEq] at done
          rw [← done]
        | some u =>
          simp only [hread, Cmd.get_bind] at done
          split at done
          next stop =>
            simp only [Cmd.pure_apply, Option.some.injEq] at done
            rw [done] at stop
            exact absurd unstopped stop
          next run =>
            rw [scan_lookup_zero _ _ _ _ _ _ (by simpa using run)] at done
            exact ih (bi + 1) done

/-- The stop value 1 of the callback is the return value of the iteration, which the lookup
takes for an error; without a match there is no inode number. So no lookup succeeds. -/
theorem e4DirLookup_none (dirIno : Nat) (name : List UInt8) (w : World) :
    (e4DirLookup dirIno name w).1 = none := by
  unfold e4DirLookup
  cases hiter : e4IterateDir dirIno (lookupCb name) 0 w with
  | mk r w' =>
    cases r with
    | none => rw [Cmd.bind_none hiter]
    | some r =>
      rw [Cmd.bind_some hiter]
      by_cases stopped : r.1 = 0
      · have hfound : r.2 = 0 := by
          simp only [e4IterateDir, Cmd.get_bind, Cmd.attempt_bind] at hiter
          have hfst := congrArg Prod.fst hiter
          cases hino : (e4ReadInode dirIno w.stackJunk w).1 with
          | none =>
            simp only [hino, Cmd.pure_apply, Option.some.injEq] at hfst
            rw [← hfst]
          | some din =>
            simp only [hino] at hfst
            split at hfst
            · simp only [Cmd.pure_apply, Option.some.injEq] at hfst
              rw [← hfst]
            · exact iterateFrom_lookup_zero din name _ 0 r hfst stopped
        simp [stopped, hfound]
      · simp [stopped]

/-- Lookup and iteration agree on a name: the lookup stores the inode number of the first
presented entry of that name, and fails exactly when there is none. -/
structure LookupAgrees (dirIno : Nat) (name : List UInt8) (w : World) : Prop where
  found : ∀ ino, (e4DirLookup dirIno name w).1 = some ino ↔
    ((presented dirIno w).find? fun e => kStrcmp e.name name = 0).map DirEntry.ino = some ino
  missing : (e4DirLookup dirIno name w).1 = none ↔
    ∀ e ∈ presented dirIno w, kStrcmp e.name name ≠ 0

/-- In every state, for every directory and name, the two agree exactly when no presented
entry has the name. -/
theorem lookup_agrees_iff_absent (w : World) (dirIno : Nat) (name : List UInt8) :
    LookupAgrees dirIno name w ↔ ∀ e ∈ presented dirIno w, kStrcmp e.name name ≠ 0 := by
  have hnone := e4DirLookup_none dirIno name w
  constructor
  · intro agrees
    exact agrees.missing.mp hnone
  · intro absent
    refine ⟨fun ino => ?_, iff_of_true hnone absent⟩
    have hfind : ((presented dirIno w).find? fun e => kStrcmp e.name name = 0) = none := by
      rw [List.find?_eq_none]
      intro e member
      simpa using absent e member
    rw [hnone, hfind, Option.map_none]

/-- A mounted image with one directory: inode 2, whose only block, 10, holds one entry `a`
for inode 11. -/
def sampleDirDisk : Bytes :=
  let d := put16 zero (5 * 1024 + 256) 0x4000
  let d := put32 d (5 * 1024 + 256 + 0x04) 1024
  let d := put32 d (5 * 1024 + 256 + 0x20) inoFlagExtents
  let d := put16 d (5 * 1024 + 256 + 0x28) extentMagic
  let d := put16 d (5 * 1024 + 256 + 0x2A) 1
  let d := put16 d (5 * 1024 + 256 + 0x38) 1
  let d := put32 d (5 * 1024 + 256 + 0x3C) 10
  let d := put32 d (10 * 1024) 11
  let d := put16 d (10 * 1024 + 4) 1024
  let d := put8 d (10 * 1024 + 6) 1
  let d := put8 d (10 * 1024 + 7) 1
  put8 d (10 * 1024 + 8) 97

def sampleDirWorld : World where
  bus := ⟨fun _ => ⟨128, true, true, sampleDirDisk⟩, 1, fun _ _ => none, 0⟩
  heap := ⟨fun _ => false, 0⟩
  e4 := { Ext4Fs.zeroed with
    dev := some 0, blockSize := 1024, sectorsPerBlock := 2, blocksCount := 64, inodesCount := 16,
    blocksPerGroup := 8192, inodesPerGroup := 16, groupCount := 1, firstDataBlock := 1,
    inodeSize := 256, descSize := 32, firstIno := 11, writable := true,
    gdt := put32 zero 8 5 }
  scratch1 := zero
  scratch2 := zero
  stackJunk := zero
  jin := zero
  committed := []
  lastCommitSeq := 0

/-- The directory is readable, its entry `a` is presented, and looking it up fails. -/
theorem lookup_misses_presented_entry :
    Iterable 2 sampleDirWorld ∧ presented 2 sampleDirWorld = [⟨[97], 11, 1⟩] ∧
      (e4DirLookup 2 [97] sampleDirWorld).1 = none ∧ ¬ LookupAgrees 2 [97] sampleDirWorld := by
  have hseen : presented 2 sampleDirWorld = [⟨[97], 11, 1⟩] := by decide +kernel
  have hnone := e4DirLookup_none 2 [97] sampleDirWorld
  refine ⟨?_, hseen, hnone, fun agrees => ?_⟩
  · unfold Iterable
    decide
  · have habsent := agrees.missing.mp hnone
    exact habsent _ List.mem_cons_self rfl

end Obsidian.Fs
