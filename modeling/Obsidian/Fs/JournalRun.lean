import Obsidian.Fs.JournalView
import Obsidian.Fs.ReplayLog

/-!
# The two passes of journal recovery

The first pass is a fold over the blocks of the log and the second a list of block
writes, which the run applies to the disk in their order. On a device that is lost on
the way the disk holds the first few of them.
-/
namespace Obsidian.Fs
open Lib Lib.Bytes Lib.Logged Lib.Redo Drivers

variable {w v u : World} {d : Nat}

/-! ## The first pass -/

/-- What the first pass collects. -/
structure Scan where
  committed : List Nat
  lastCommitSeq : Nat
  rev : Bytes

def Scan.commit (s : Scan) (seq : Nat) : Scan :=
  if s.committed.contains seq then s
  else
    let committed :=
      if s.committed.length < maxTrackedSeqs then s.committed ++ [seq] else s.committed
    { s with
      committed := committed
      lastCommitSeq := if s.lastCommitSeq < seq ∨
        committed.length = 0 then seq else s.lastCommitSeq }

/-- One block of the log. -/
def Scan.block (e4 : Ext4Fs) (s : Scan) (buf : Bytes) : Scan :=
  if getBE32 buf 0 ≠ jMagic then s
  else if getBE32 buf 4 = jtCommit then s.commit (getBE32 buf 8)
  else if getBE32 buf 4 = jtRevoke then
    if e4.blockSize < get32 buf 12 then s
    else { s with rev := noteRevokes e4 buf (get32 buf 12) (get32 buf 12) 16 s.rev }
  else s

/-- The blocks of the log from `i` on. -/
def scanLog (e4 : Ext4Fs) (log : Nat → Option Bytes) : Nat → Nat → Scan → Scan
  | 0, _, s => s
  | more + 1, i, s => scanLog e4 log more (i + 1) (((log i).map (s.block e4)).getD s)

/-- The state with the counters of a first pass. -/
def World.scanned (w : World) (s : Scan) : World :=
  { w with committed := s.committed, lastCommitSeq := s.lastCommitSeq }

/-- The counters in the state, with the revoked blocks that the pass has in hand. -/
def World.scan (w : World) (rev : Bytes) : Scan := ⟨w.committed, w.lastCommitSeq, rev⟩

theorem noteCommit_eq (seq : Nat) (rev : Bytes) (w : World) :
    noteCommit seq w = (some (), w.scanned ((w.scan rev).commit seq)) := by
  unfold noteCommit Scan.commit World.scan
  rw [Cmd.modify_apply]
  split
  · rfl
  · rfl

theorem Scan.commit_rev (s : Scan) (seq : Nat) : (s.commit seq).rev = s.rev := by
  unfold Scan.commit
  split
  · rfl
  · rfl

theorem scanned_view (w : World) (s : Scan) : View w (w.scanned s) :=
  ⟨⟨rfl, fun _ => rfl, fun _ _ => rfl, fun _ _ => rfl, rfl⟩, rfl⟩

theorem Like.scanned (like : Like w v) (s : Scan) : Like (w.scanned s) (v.scanned s) := by
  refine ⟨?_, like.first, like.second⟩
  rw [like.same]
  rfl

/-- The counters after a block of the log, read or not. -/
def World.scanNext (w : World) (rev : Bytes) (r : Option Bytes) : Scan :=
  (r.map ((w.scan rev).block w.e4)).getD (w.scan rev)

theorem scanNext_some (w : World) (rev buf : Bytes) :
    w.scanNext rev (some buf) = (w.scan rev).block w.e4 buf := by
  rw [World.scanNext, Option.map_some, Option.getD_some]

theorem journalScan_step (more i : Nat) (rev : Bytes) (w : World) : journalScan (more + 1) i rev w =
      journalScan more (i + 1) ((jread i w).2.scanNext rev (jread i w).1).rev
        ((jread i w).2.scanned ((jread i w).2.scanNext rev (jread i w).1)) := by
  rw [journalScan, Cmd.attempt_bind]
  generalize (jread i w).2 = t
  cases (jread i w).1 with
  | none => rfl
  | some buf =>
    rw [scanNext_some, Scan.block]
    dsimp only
    by_cases magic : getBE32 buf 0 ≠ jMagic
    · rw [if_pos magic, if_pos magic]
      rfl
    · rw [if_neg magic, if_neg magic]
      by_cases commit : getBE32 buf 4 = jtCommit
      · rw [if_pos commit, if_pos commit, Cmd.bind_some (noteCommit_eq _ rev t), Scan.commit_rev]
        rfl
      · rw [if_neg commit, if_neg commit]
        by_cases revoke : getBE32 buf 4 = jtRevoke
        · rw [if_pos revoke, if_pos revoke, Cmd.get_bind]
          by_cases long : t.e4.blockSize < get32 buf 12
          · rw [if_pos long, if_pos long]
            rfl
          · rw [if_neg long, if_neg long]
            rfl
        · rw [if_neg revoke, if_neg revoke]
          rfl

theorem Sound.journalScan (sound : Sound w d) (extents : Ino.flags w.jin &&& inoFlagExtents ≠ 0)
    (more i : Nat) (rev : Bytes) :
    Cmd.Ends (device d) (· = w.disk d) (fun r v =>
      Like (w.scanned (scanLog w.e4 (w.log d (w.disk d) w.jin) more i (w.scan rev))) v ∧
      r = some (scanLog w.e4 (w.log d (w.disk d) w.jin) more i (w.scan rev)).rev)
      (journalScan more i rev w) := by
  induction more generalizing i rev w with
  | zero => exact Or.inl ⟨.refl w, rfl⟩
  | succ more ih =>
    rw [journalScan_step]
    rcases sound.jread extents i with ⟨like, hr⟩ | ⟨dead, held⟩
    · rw [hr]
      generalize (Fs.jread i w).2 = t at like ⊢
      have hnext : t.scanNext rev (w.log d (w.disk d) w.jin i) =
          w.scanNext rev (w.log d (w.disk d) w.jin i) := by
        unfold World.scanNext World.scan
        rw [like.committed, like.lastCommitSeq, like.e4]
      rw [hnext, scanLog]
      change Cmd.Ends _ _ (fun r v =>
        Like (w.scanned (scanLog w.e4 (w.log d (w.disk d) w.jin) more (i + 1)
        (w.scanNext rev (w.log d (w.disk d) w.jin i)))) v ∧ _ = some (scanLog w.e4
          (w.log d (w.disk d) w.jin) more (i + 1)
            (w.scanNext rev (w.log d (w.disk d) w.jin i))).rev) _
      generalize w.scanNext rev (w.log d (w.disk d) w.jin i) = s
      have view : View w (t.scanned s) := like.view.trans (scanned_view t s)
      have hjin : (t.scanned s).jin = w.jin := like.jin
      have hdisk : (t.scanned s).disk d = w.disk d := like.disk
      have next := ih (view.sound sound) (hjin ▸ extents) (i + 1) s.rev
      rw [hdisk, hjin, view.log, view.e4] at next
      refine next.mono ?_ fun m hm => hm
      rintro r u ⟨after, hr⟩
      exact ⟨(like.scanned _).trans after, hr⟩
    · obtain ⟨hdead, hheld⟩ := (journalScan_inert (d := d) more (i + 1)
        ((Fs.jread i w).2.scanNext rev (Fs.jread i w).1).rev).lost
        (s := (Fs.jread i w).2.scanned ((Fs.jread i w).2.scanNext rev (Fs.jread i w).1)) dead
      exact Or.inr ⟨hdead, hheld.trans held⟩

/-! ## The second pass -/

/-- What the second pass works with: the log as a function of the disk, the blocks that can
be written, and what the first pass and the journal superblock gave. -/
structure Pass where
  log : Bytes → Nat → Option Bytes
  lands : Nat → Bool
  bs : Nat
  cap : Nat
  tagsz : Nat
  rev : Bytes
  committed : List Nat

/-- Where the loop over the tags of a descriptor stops. -/
def Pass.stops (p : Pass) (buf : Bytes) (c off : Nat) : Prop :=
  (p.bs < off + p.tagsz ∨ p.cap ≤ c) ∨ getBE32 buf (off + 4) &&& tagLast ≠ 0 ∨ getBE32 buf off = 0

instance (p : Pass) (buf : Bytes) (c off : Nat) : Decidable (p.stops buf c off) :=
  inferInstanceAs (Decidable (_ ∨ _))

/-- The write a tag stands for. -/
def tagWrite (buf : Bytes) (off : Nat) (content : Bytes) : Write :=
  (getBE32 buf off, unescape (getBE32 buf (off + 4)) content)

/-- The first log block not consumed by a descriptor, and the writes of its tags. -/
def Pass.tags (p : Pass) (buf : Bytes) : Nat → Nat → Nat → Bytes → Nat × List Write
  | 0, c, _, _ => (c, [])
  | more + 1, c, off, data =>
    if p.stops buf c off then (c, [])
    else
      match p.log data c with
      | none => (c, [])
      | some content =>
        if bitAt p.rev (getBE32 buf off) then p.tags buf more (c + 1) (off + p.tagsz) data
        else if p.lands (getBE32 buf off) then
          let rest := p.tags buf more (c + 1) (off + p.tagsz)
            (writeBlock p.bs data (tagWrite buf off content))
          (rest.1, tagWrite buf off content :: rest.2)
        else (c, [])

/-- A descriptor block of a committed transaction. -/
def Pass.describes (p : Pass) (buf : Bytes) : Prop :=
  getBE32 buf 0 = jMagic ∧ getBE32 buf 4 = jtDesc ∧ p.committed.contains (getBE32 buf 8)

instance (p : Pass) (buf : Bytes) : Decidable (p.describes buf) := inferInstanceAs
    (Decidable (_ ∧ _))

/-- The writes of the log blocks from `i` on. -/
def Pass.blocks (p : Pass) : Nat → Nat → Bytes → List Write
  | 0, _, _ => []
  | more + 1, i, data =>
    if p.cap ≤ i then []
    else
      match p.log data i with
      | none => p.blocks more (i + 1) data
      | some buf =>
        if p.describes buf then
          let tags := p.tags buf p.bs (i + 1) 12 data
          tags.2 ++ p.blocks more tags.1 (writeAll p.bs tags.2 data)
        else p.blocks more (i + 1) data

/-- The targets of a descriptor whose bit is looked at, as `Pass.tags` goes through them. -/
def Pass.tagLooks (p : Pass) (buf : Bytes) : Nat → Nat → Nat → Bytes → List Nat
  | 0, _, _, _ => []
  | more + 1, c, off, data =>
    if p.stops buf c off then []
    else
      match p.log data c with
      | none => []
      | some content =>
        getBE32 buf off ::
          if bitAt p.rev (getBE32 buf off) then p.tagLooks buf more (c + 1) (off + p.tagsz) data
          else if p.lands (getBE32 buf off) then
            p.tagLooks buf more (c + 1) (off + p.tagsz)
              (writeBlock p.bs data (tagWrite buf off content))
          else []

/-- The targets of the log blocks from `i` on whose bit is looked at. -/
def Pass.looks (p : Pass) : Nat → Nat → Bytes → List Nat
  | 0, _, _ => []
  | more + 1, i, data =>
    if p.cap ≤ i then []
    else
      match p.log data i with
      | none => p.looks more (i + 1) data
      | some buf =>
        if p.describes buf then
          let tags := p.tags buf p.bs (i + 1) 12 data
          p.tagLooks buf p.bs (i + 1) 12 data ++ p.looks more tags.1 (writeAll p.bs tags.2 data)
        else p.looks more (i + 1) data

/-- The second pass of a state. -/
def World.pass (w : World) (d cap tagsz : Nat) (rev : Bytes) : Pass :=
  ⟨fun data => w.log d data w.jin, w.lands d, w.e4.blockSize, cap, tagsz, rev, w.committed⟩

theorem Static.pass (view : Static w v) (hjin : v.jin = w.jin)
    (hcommitted : v.committed = w.committed) (d cap tagsz : Nat) (rev : Bytes) :
    v.pass d cap tagsz rev = w.pass d cap tagsz rev := by
  have hlands : v.lands d = w.lands d := funext (view.lands d)
  have hlog : (fun data => v.log d data v.jin) = fun data => w.log d data w.jin := by
    funext data
    rw [hjin, view.log]
  rw [World.pass, hlog, hlands, view.e4, hcommitted, World.pass]

theorem Like.onDisk (like : Like w v) (d : Nat) (data : Bytes) :
    Like (w.onDisk d data) (v.onDisk d data) := by
  refine ⟨?_, like.first, like.second⟩
  rw [like.same]
  rfl

/-- The writes are done, in their order and as far as the device is there. -/
def Writes (d : Nat) {α : Type} (w : World) (t : α × List Write) (r : Option α × World) : Prop :=
  Cmd.Ends (device d) (Partly w.e4.blockSize t.2 (w.disk d))
    (fun o v => Like (w.onDisk d (writeAll w.e4.blockSize t.2 (w.disk d))) v ∧ o = some t.1) r

section Writes

variable {α : Type} {a : α} {r : Option α × World}

theorem Writes.none (like : Like w v) : Writes d w (a, []) (some a, v) := by
  refine Or.inl ⟨?_, rfl⟩
  rw [writeAll_nil, onDisk_self]
  exact like

theorem Writes.after_like {t : α × List Write} (like : Like w v) (writes : Writes d v t r) :
    Writes d w t r := by
  unfold Writes at writes ⊢
  rw [like.disk, like.e4] at writes
  refine writes.mono ?_ fun m hm => hm
  rintro o u ⟨after, ho⟩
  exact ⟨(like.onDisk d _).trans after, ho⟩

end Writes

/-- The same for a run with a log, whose new events are of the kind `P` exactly when `C` holds. -/
def WritesNoting (P : ReplayEvent → Prop) (d : Nat) {α : Type} (w : World) (l : List ReplayEvent)
    (t : α × List Write) (C : Prop) (r : Option α × Journaled) : Prop :=
  Cmd.Ends (medium (device d)) (Partly w.e4.blockSize t.2 (w.disk d)) (fun o s =>
    (Like (w.onDisk d (writeAll w.e4.blockSize t.2 (w.disk d))) s.1 ∧ o = some t.1) ∧
      Noted P C l s.2) r

theorem Reads.lifted {α : Type} {c : Cmd World α} {result : Option α} (reads : Reads d c w result)
    (l : List ReplayEvent) (bs : Nat) (ws : List Write) :
    Cmd.Ends (medium (device d)) (Partly bs ws (w.disk d))
    (fun r s => (Like w s.1 ∧ r = result) ∧ s.2 = l) (lift c (w, l)) :=
  (lift_ends reads l).mono (fun _ _ h => h) fun _ hm => hm ▸ Partly.start _ _ _

section WritesNoting

variable {P : ReplayEvent → Prop} {α : Type} {a : α} {ws vs : List Write} {l k : List ReplayEvent}
    {C D : Prop}
variable {r : Option α × Journaled}

theorem WritesNoting.plain {c : Cmd Journaled α} {plain : Cmd World α} {t : α × List Write}
    (writes : WritesNoting P d w l t C (c (w, l))) (logs : Logs c plain) : Writes d w t (plain w) :=
  logs.ends l (writes.mono (fun _ _ h => h.1) fun _ h => h)

theorem WritesNoting.none (like : Like w v) (noted : Noted P C l k) :
    WritesNoting P d w l (a, []) C (some a, v, k) :=
  (Writes.none like).imp (fun h => ⟨h, noted⟩) id

theorem WritesNoting.after_like {t : α × List Write} (like : Like w v)
    (writes : WritesNoting P d v k t D r) (noted : ∀ m, Noted P D k m → Noted P C l m) :
    WritesNoting P d w l t C r := by
  unfold WritesNoting at writes ⊢
  rw [like.disk, like.e4] at writes
  refine writes.mono ?_ fun m hm => hm
  rintro o s ⟨⟨after, ho⟩, hs⟩
  exact ⟨⟨(like.onDisk d _).trans after, ho⟩, noted _ hs⟩

theorem WritesNoting.after_writes
    (first : Like (w.onDisk d (writeAll w.e4.blockSize vs (w.disk d))) v)
    (writes : WritesNoting P d v k (a, ws) D r) (noted : ∀ m, Noted P D k m → Noted P C l m) :
    WritesNoting P d w l (a, vs ++ ws) C r := by
  have hdisk : v.disk d = writeAll w.e4.blockSize vs (w.disk d) :=
    first.disk.trans (onDisk_disk _ _ _)
  have he4 : v.e4 = w.e4 := first.e4
  unfold WritesNoting at writes ⊢
  rw [hdisk, he4, ← writeAll_append] at writes
  refine writes.mono ?_ fun m hm => hm.append_right
  rintro o s ⟨⟨after, ho⟩, hs⟩
  refine ⟨⟨?_, ho⟩, noted _ hs⟩
  have hlike := (first.onDisk d (writeAll w.e4.blockSize (vs ++ ws) (w.disk d))).trans after
  rwa [onDisk_onDisk] at hlike

theorem WritesNoting.bind {β : Type} {b : β} {c : Cmd Journaled β} {f : β → Cmd Journaled α}
    {s : Journaled} (first : WritesNoting P d w l (b, vs) C (c s))
    (inert : ∀ b, Cmd.Inert (medium (device d)) (f b))
    (rest : ∀ v k, Like (w.onDisk d (writeAll w.e4.blockSize vs (w.disk d))) v →
      WritesNoting P d v k (a, ws) D (f b (v, k))) :
    WritesNoting P d w l (a, vs ++ ws) (C ∧ D) ((c >>= f) s) := by
  refine Cmd.Ends.bind (first.mono (fun _ _ h => h) fun _ h => h.append_left) inert ?_ ?_
  · rintro t ⟨⟨-, hnone⟩, -⟩
    cases hnone
  · rintro b' ⟨v, k⟩ ⟨⟨like, hsome⟩, noted⟩
    cases hsome
    exact (rest v k like).after_writes like fun _ more => noted.trans more

end WritesNoting

/-- Events that a descriptor gives rise to whatever its targets are. -/
structure Admits (P : ReplayEvent → Prop) : Prop where
  unread : ∀ b revoked, P (.unread b revoked)
  unwritten : ∀ b, P (.unwritten b)

/-- The bit of the target may be looked at, and the target written where it is not revoked and
the device takes the write. -/
def Pass.admits (p : Pass) (P : ReplayEvent → Prop) (target : Nat) : Prop :=
  P (.look target) ∧ (¬ bitAt p.rev target → p.lands target = true → P (.wrote target))

theorem applyTagsLogged_succ (d : Nat) (buf rev : Bytes) (cap tagsz more c off : Nat) :
    applyTagsLogged buf rev cap tagsz (more + 1) c off = lift Cmd.get >>= fun w =>
      if (w.pass d cap tagsz rev).stops buf c off then pure c
      else Cmd.attempt (lift (jread c)) >>= fun r =>
        match r with
        | none => note (.unread (getBE32 buf off) (bitAt rev (getBE32 buf off))) >>= fun _ => pure c
        | some content => note (.look (getBE32 buf off)) >>= fun _ =>
          if bitAt rev (getBE32 buf off) then applyTagsLogged buf rev cap tagsz more (c + 1)
          (off + tagsz) else Cmd.attempt
          (lift (e4WriteBlock (getBE32 buf off) (tagWrite buf off content).2)) >>= fun o =>
            match o with
            | none => note (.unwritten (getBE32 buf off)) >>= fun _ => pure c
            | some _ => note (.wrote (getBE32 buf off)) >>= fun _ =>
              applyTagsLogged buf rev cap tagsz more (c + 1) (off + tagsz) := by
  rw [applyTagsLogged]
  refine bind_congr fun w => ?_
  by_cases stops : (w.pass d cap tagsz rev).stops buf c off
  · rw [if_pos stops]
    rcases stops with full | last | zero
    · have hfull : w.e4.blockSize < off + tagsz ∨ cap ≤ c := full
      rw [if_pos hfull]
    · dsimp only
      rw [if_pos last, ite_self]
    · dsimp only
      rw [if_pos zero, ite_self, ite_self]
  · rw [if_neg stops]
    obtain ⟨room, rest⟩ := not_or.mp stops
    obtain ⟨last, target⟩ := not_or.mp rest
    have hroom : ¬ (w.e4.blockSize < off + tagsz ∨ cap ≤ c) := room
    dsimp only
    rw [if_neg hroom, if_neg last, if_neg target]
    rfl

theorem applyTagsLogged_inert (buf rev : Bytes) (cap tagsz more c off : Nat) :
    Cmd.Inert (medium (device d)) (applyTagsLogged buf rev cap tagsz more c off) :=
  (applyTagsLogged_logs buf rev cap tagsz more c off).inert
    (applyTags_inert buf rev cap tagsz more c off)

theorem journalApplyLogged_succ (d : Nat) (rev : Bytes) (cap tagsz more i : Nat) :
    journalApplyLogged rev cap tagsz (more + 1) i =
      if cap ≤ i then pure ()
      else Cmd.attempt (lift (jread i)) >>= fun r =>
        match r with
        | none => journalApplyLogged rev cap tagsz more (i + 1)
        | some buf => lift Cmd.get >>= fun w =>
          if (w.pass d cap tagsz rev).describes buf then
            applyTagsLogged buf rev cap tagsz w.e4.blockSize (i + 1) 12 >>= fun c =>
              journalApplyLogged rev cap tagsz more c
          else journalApplyLogged rev cap tagsz more (i + 1) := by
  rw [journalApplyLogged]
  refine ite_congr rfl (fun _ => rfl) fun _ => bind_congr fun r => ?_
  cases r with
  | none => rfl
  | some buf =>
    refine bind_congr fun w => ?_
    by_cases describes : (w.pass d cap tagsz rev).describes buf
    · obtain ⟨magic, kind, committed⟩ := describes
      have committed' : w.committed.contains (getBE32 buf 8) = true := committed
      have go : ¬ (getBE32 buf 4 ≠ jtDesc ∨ w.committed.contains (getBE32 buf 8) = false) := by
        rw [committed', kind]
        decide
      have describes : (w.pass d cap tagsz rev).describes buf := ⟨magic, kind, committed⟩
      rw [if_neg (not_not.mpr magic), if_neg go, if_pos describes]
    · rw [if_neg describes]
      by_cases magic : getBE32 buf 0 = jMagic
      · have skip : getBE32 buf 4 ≠ jtDesc ∨ w.committed.contains (getBE32 buf 8) = false := by
          by_contra go
          obtain ⟨kind, committed⟩ := not_or.mp go
          exact describes ⟨magic, not_not.mp kind, (Bool.not_eq_false _).mp committed⟩
        rw [if_neg (not_not.mpr magic), if_pos skip]
      · rw [if_pos magic]

section SecondPass

variable {P : ReplayEvent → Prop} (rev : Bytes) (admits : Admits P)
include admits

theorem Sound.tags_logged (sound : Sound w d) (extents : Ino.flags w.jin &&& inoFlagExtents ≠ 0)
    (buf : Bytes) (cap tagsz more c off : Nat) (l : List ReplayEvent) :
    WritesNoting P d w l ((w.pass d cap tagsz rev).tags buf more c off (w.disk d))
      (∀ b ∈ (w.pass d cap tagsz rev).tagLooks buf more c off (w.disk d),
        (w.pass d cap tagsz rev).admits P b)
      (applyTagsLogged buf rev cap tagsz more c off (w, l)) := by
  induction more generalizing c off w l with
  | zero => exact .none (.refl w) (.nothing (List.forall_mem_nil _))
  | succ more ih =>
    rw [applyTagsLogged_succ d, lift_get_bind, Pass.tags, Pass.tagLooks]
    by_cases stops : (w.pass d cap tagsz rev).stops buf c off
    · rw [if_pos stops, if_pos stops, if_pos stops]
      exact .none (.refl w) (.nothing (List.forall_mem_nil _))
    rw [if_neg stops, if_neg stops, if_neg stops]
    have written_inert : ∀ o : Option Unit, Cmd.Inert (medium (device d)) (match o with
        | none => note (.unwritten (getBE32 buf off)) >>= fun _ => pure c
        | some _ => note (.wrote (getBE32 buf off)) >>= fun _ =>
          applyTagsLogged buf rev cap tagsz more (c + 1) (off + tagsz)) := by
      intro o
      cases o with
      | none => exact .bind (notes_inert _) fun _ => .pure c
      | some _ => exact .bind (notes_inert _) fun _ => applyTagsLogged_inert _ _ _ _ _ _ _
    refine Cmd.Ends.attempt_bind ((sound.jread extents c).lifted l _ _) (fun r => ?_) ?_
    · cases r with
      | none => exact .bind (notes_inert _) fun _ => .pure c
      | some content =>
        exact .bind (notes_inert _) fun _ => .ite (applyTagsLogged_inert _ _ _ _ _ _ _)
          (.bind (.attempt (lift_inert (e4WriteBlock_inert _ _))) written_inert)
    rintro r ⟨t, k⟩ ⟨⟨like, hr⟩, hk⟩
    subst hr hk
    have hlog : (w.pass d cap tagsz rev).log (w.disk d) c = w.log d (w.disk d) w.jin c := rfl
    rw [hlog]
    cases w.log d (w.disk d) w.jin c with
    | none =>
      exact WritesNoting.none like ((Noted.after_note (.nothing trivial)).congr
        (iff_of_true ⟨admits.unread _ _, trivial⟩ (List.forall_mem_nil _)))
    | some content =>
      dsimp only
      rw [List.forall_mem_cons]
      by_cases revoked : bitAt rev (getBE32 buf off)
      · have hrev : bitAt (w.pass d cap tagsz rev).rev (getBE32 buf off) := revoked
        rw [if_pos revoked, if_pos hrev, if_pos hrev]
        have next := ih (like.sound sound) (like.jin ▸ extents) (c + 1) (off + tagsz)
          (k ++ [.look (getBE32 buf off)])
        rw [like.view.pass like.jin like.committed, like.disk] at next
        exact next.after_like like fun m noted => noted.after_note.congr
          (and_congr_left fun _ => (and_iff_left fun kept => absurd hrev kept).symm)
      have hrev : ¬ bitAt (w.pass d cap tagsz rev).rev (getBE32 buf off) := revoked
      have hsmall : getBE32 buf off < 562949953421312 :=
        Nat.lt_of_lt_of_le (getBE32_lt buf off) (by decide)
      have hlands : (w.pass d cap tagsz rev).lands (getBE32 buf off) =
          t.lands d (getBE32 buf off) :=
        (like.view.lands d _).symm
      rw [if_neg revoked, if_neg hrev, if_neg hrev, Pass.admits, forall_prop_of_true hrev, hlands]
      refine Cmd.Ends.attempt_bind
        ((lift_ends ((like.sound sound).write hsmall (tagWrite buf off content).2)
        (k ++ [.look (getBE32 buf off)])).mono (fun _ _ h => h) ?_) written_inert ?_
      · intro m hm
        rw [hm, like.disk]
        exact Partly.start _ _ _
      rintro o ⟨u, m⟩ ⟨done, hm⟩
      subst hm
      by_cases lands : t.lands d (getBE32 buf off)
      · rw [if_pos lands] at done
        rw [if_pos lands, if_pos lands]
        obtain ⟨rfl, wrote⟩ := done
        have first : Like (w.onDisk d (writeAll w.e4.blockSize [tagWrite buf off content]
            (w.disk d))) u := by
          rw [like.e4, like.disk] at wrote
          exact (like.onDisk d _).trans wrote
        have view := (onDisk_view w d _).trans first.view
        have next := ih (view.sound sound) (first.jin ▸ extents) (c + 1) (off + tagsz)
          (k ++ [.look (getBE32 buf off)] ++ [.wrote (getBE32 buf off)])
        rw [view.pass first.jin first.committed, first.disk, onDisk_disk] at next
        refine next.after_writes first fun m noted => noted.after_note.after_note.congr ?_
        rw [forall_prop_of_true lands, ← and_assoc]
        rfl
      · rw [if_neg lands] at done
        rw [if_neg lands, if_neg lands]
        obtain ⟨rfl, same⟩ := done
        refine WritesNoting.none (like.trans same)
          ((Noted.after_note (.after_note (.nothing trivial))).congr ?_)
        rw [and_iff_left ⟨admits.unwritten _, trivial⟩, and_iff_left (List.forall_mem_nil _),
          and_iff_left fun landed => absurd landed lands]

theorem Sound.apply_logged (sound : Sound w d) (extents : Ino.flags w.jin &&& inoFlagExtents ≠ 0)
    (cap tagsz more i : Nat) (l : List ReplayEvent) :
    WritesNoting P d w l ((), (w.pass d cap tagsz rev).blocks more i (w.disk d))
      (∀ b ∈ (w.pass d cap tagsz rev).looks more i (w.disk d), (w.pass d cap tagsz rev).admits P b)
      (journalApplyLogged rev cap tagsz more i (w, l)) := by
  induction more generalizing i w l with
  | zero => exact .none (.refl w) (.nothing (List.forall_mem_nil _))
  | succ more ih =>
    have inert : ∀ i, Cmd.Inert (medium (device d)) (journalApplyLogged rev cap tagsz more i) :=
      fun i =>
      (journalApplyLogged_logs rev cap tagsz more i).inert (journalApply_inert rev cap tagsz more i)
    rw [journalApplyLogged_succ d, Pass.blocks, Pass.looks]
    by_cases past : cap ≤ i
    · have hpast : (w.pass d cap tagsz rev).cap ≤ i := past
      rw [if_pos past, if_pos hpast, if_pos hpast]
      exact .none (.refl w) (.nothing (List.forall_mem_nil _))
    have hpast : ¬ (w.pass d cap tagsz rev).cap ≤ i := past
    have hlog : (w.pass d cap tagsz rev).log (w.disk d) i = w.log d (w.disk d) w.jin i := rfl
    rw [if_neg past, if_neg hpast, if_neg hpast, hlog]
    refine Cmd.Ends.attempt_bind ((sound.jread extents i).lifted l _ _) (fun r => ?_) ?_
    · cases r with
      | none => exact inert _
      | some buf =>
        exact .bind (lift_inert .get) fun _ =>
          .ite (.bind (applyTagsLogged_inert _ _ _ _ _ _ _) inert) (inert _)
    rintro r ⟨t, k⟩ ⟨⟨like, hr⟩, hk⟩
    subst hr hk
    have hpass := like.view.pass like.jin like.committed d cap tagsz rev
    have hsound := like.sound sound
    have hextents : Ino.flags t.jin &&& inoFlagExtents ≠ 0 := like.jin ▸ extents
    have next := ih hsound hextents (i + 1) k
    rw [hpass, like.disk] at next
    cases w.log d (w.disk d) w.jin i with
    | none => exact next.after_like like fun _ noted => noted
    | some buf =>
      dsimp only
      rw [lift_get_bind, hpass]
      by_cases describes : (w.pass d cap tagsz rev).describes buf
      · rw [if_pos describes, if_pos describes, if_pos describes, List.forall_mem_append]
        have tags := hsound.tags_logged rev admits hextents buf cap tagsz t.e4.blockSize
          (i + 1) 12 k
        rw [hpass, like.disk, like.e4] at tags
        rw [like.e4]
        refine (WritesNoting.bind tags inert fun v m done => ?_).after_like like fun _ noted =>
          noted
        have view := (onDisk_view t d _).trans done.view
        have after := ih (view.sound hsound) (done.jin ▸ hextents)
          ((w.pass d cap tagsz rev).tags buf w.e4.blockSize (i + 1) 12 (w.disk d)).1 m
        rw [view.pass done.jin done.committed, hpass, done.disk, onDisk_disk, like.disk,
          like.e4] at after
        exact after
      · rw [if_neg describes, if_neg describes, if_neg describes]
        exact next.after_like like fun _ noted => noted

end SecondPass

theorem Sound.journalApply (sound : Sound w d) (extents : Ino.flags w.jin &&& inoFlagExtents ≠ 0)
    (rev : Bytes) (cap tagsz more i : Nat) :
    Writes d w ((), (w.pass d cap tagsz rev).blocks more i (w.disk d))
      (journalApply rev cap tagsz more i w) :=
  (sound.apply_logged (P := fun _ => True) rev ⟨fun _ _ => trivial, fun _ => trivial⟩ extents
    cap tagsz more i []).plain (journalApplyLogged_logs _ _ _ _ _)

end Obsidian.Fs
