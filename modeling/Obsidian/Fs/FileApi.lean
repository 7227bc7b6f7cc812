import Obsidian.Fs.Fsops

/-!
# The file interface

Source: fs/ext4_mount.c: path resolution, `ext4_read`, `do_replace`, `ext4_write` and
`ext4_unlink`.

What `e4_now()` returns is an argument. A function that changes an inode through a pointer
returns the changed inode. A path is a string without its terminator. The directory lookup is
an argument too, so that the interface can be compared over different lookups; the
driver's is `e4DirLookup`.
-/
namespace Obsidian.Fs
open Lib Lib.Bytes

/-! ## Path resolution -/

def ext4MaxPath : Nat := 128
def ext4NameMax : Nat := 255

/-- `'/'` -/
def slash : UInt8 := 47

def compOk (s : List UInt8) : Bool := 0 < s.length ∧ s.length ≤ ext4NameMax ∧ s.head? ≠ some slash

/-- A directory lookup: the inode number of a name in a directory. -/
abbrev Lookup : Type := Nat → List UInt8 → Cmd World Nat

/-- The loop of `resolve_full` over what is left of the path; every round takes a component
off it. -/
def resolveFrom (lookup : Lookup) : Nat → List UInt8 → Nat → Cmd World Nat
  | 0, _, cur => pure cur
  | fuel + 1, p, cur =>
    let p := p.dropWhile (· = slash)
    if p = [] then pure cur
    else
      let name := p.takeWhile (· ≠ slash)
      if compOk name = false then Cmd.fail
      else do
        let w ← Cmd.get
        let ci ← e4ReadInode cur w.stackJunk
        if e4IsDir ci = false then Cmd.fail
        else do
          let next ← lookup cur name
          resolveFrom lookup fuel ((p.dropWhile (· ≠ slash)).drop 1) next

def resolveFull (lookup : Lookup) (path : List UInt8) : Cmd World Nat :=
  if path.head? ≠ some slash ∨ ext4MaxPath ≤ path.length then Cmd.fail
  else resolveFrom lookup path.length (path.drop 1) ext4RootIno

/-- The path without the slashes it ends in; its first character stays. -/
def stripSlashes (path : List UInt8) : List UInt8 :=
  path.take 1 ++ ((path.drop 1).reverse.dropWhile (· = slash)).reverse

/-- What follows the last slash. -/
def lastComponent (buf : List UInt8) : List UInt8 := (buf.reverse.takeWhile (· ≠ slash)).reverse

/-- `resolve_parent`: the last component and the directory it is in. The path starts with a
slash, so there is a last one. -/
def resolveParent (lookup : Lookup) (path : List UInt8) : Cmd World (List UInt8 × Nat) :=
  if path.head? ≠ some slash ∨ ext4MaxPath ≤ path.length then Cmd.fail
  else
    let buf := stripSlashes path
    let name := lastComponent buf
    let dir := buf.take (buf.length - name.length - 1)
    if compOk name = false then Cmd.fail
    else do
      let parent ← resolveFull lookup (if dir = [] then [slash] else dir)
      let w ← Cmd.get
      let inode ← e4ReadInode parent w.stackJunk
      if e4IsDir inode = false then Cmd.fail else pure (name, parent)

/-! ## Reading -/

/-- The loop of `ext4_read`: the return value and the caller's buffer. A round moves one octet
or more; a loop that goes through all its rounds has not returned. -/
def readLoop (inode : Bytes) (want : Nat) : Nat → Nat → Bytes → Cmd World (Int × Bytes)
  | 0, _, _ => Cmd.fail
  | rounds + 1, done, out =>
    if want ≤ done then pure (toS32 done, out)
    else do
      let w ← Cmd.get
      let boff := u32 (done % w.e4.blockSize)
      let inBlock := sub32 w.e4.blockSize boff
      let chunk := if sub32 want done < inBlock then sub32 want done else inBlock
      match ← Cmd.attempt (e4Bmap inode (done / w.e4.blockSize)) with
      | none => pure (-1, out)
      | some db =>
        if db = 0 then readLoop inode want rounds (u32 (done + chunk)) (fill out done chunk 0)
        else do
          match ← Cmd.attempt (readScratch1 db) with
          | none => pure (-1, out)
          | some _ => do
            let w ← Cmd.get
            readLoop inode want rounds (u32 (done + chunk)) (copy out done w.scratch1 boff chunk)

def ext4Read (lookup : Lookup) (path : List UInt8) (out : Bytes) (maxLen : Nat) :
    Cmd World (Int × Bytes) := do
  let w ← Cmd.get
  if w.e4.dev = none then pure (-1, out)
  else do
    match ← Cmd.attempt (resolveFull lookup path) with
    | none => pure (-1, out)
    | some ino => do
      let w ← Cmd.get
      match ← Cmd.attempt (e4ReadInode ino w.stackJunk) with
      | none => pure (-1, out)
      | some inode =>
        if e4IsDir inode then pure (-1, out)
        else do
          let w ← Cmd.get
          let size := e4InodeSize w.e4 inode
          let want := if size < maxLen then u32 size else maxLen
          readLoop inode want (want + 1) 0 out

/-! ## Replacing the contents of a file -/

/-- The inode after its contents were replaced. -/
def stampInode (now len : Nat) (inode : Bytes) : Bytes :=
  let inode := Ino.putSizeLo inode len
  let inode := Ino.putSizeOrDirAcl inode 0
  let inode := Ino.putMtime inode (u32 now)
  let inode := Ino.putCtime inode (u32 now)
  Ino.putAtime inode (u32 now)

/-- `(len + e4.block_size - 1) / e4.block_size` -/
def Ext4Fs.blocksFor (e4 : Ext4Fs) (len : Nat) : Nat := u32 (len + e4.blockSize - 1) / e4.blockSize

def doReplace (now ino : Nat) (inode data : Bytes) (len : Nat) : Cmd World Bytes :=
  if Ino.flags inode &&& inoFlagExtents = 0 then Cmd.fail
  else do
    let inode ← e4Truncate inode 0
    let w ← Cmd.get
    let nblocks := w.e4.blocksFor len
    let inode ←
      if nblocks ≠ 0 then e4AppendBlocks inode ino 0 nblocks (if len ≠ 0 then some data else none)
        else pure inode
    e4WriteInode ino (stampInode now len inode)
    pure (stampInode now len inode)

/-! ## Writing and unlinking -/

def ext4WriteCap : Nat := 16 <<< 20

/-- The inode of a file that `ext4_write` creates. -/
def freshInode (e4 : Ext4Fs) (now ino : Nat) : Bytes :=
  let i := Ino.putMode zero 0x81A4
  let i := Ino.putUid i 0
  let i := Ino.putGid i 0
  let i := Ino.putLinksCount i 1
  let i := Ino.putFlags i inoFlagExtents
  let i := Ino.putAtime i (u32 now)
  let i := Ino.putCtime i (u32 now)
  let i := Ino.putMtime i (u32 now)
  let i := Ino.putCrtime i (u32 now)
  let i := Ino.putGeneration i (u32 (now ^^^ u32 (ino * 2654435761)))
  if 128 < e4.inodeSize then
    Ino.putExtraIsize i (if 32 < e4.inodeSize - 128 then 32 else e4.inodeSize - 128)
  else i

/-- The last steps of a change that succeeded; the return code of the write is dropped. -/
def storeSuper : Cmd World Unit := do
  e4SbRecomputeChecksum
  Cmd.ignore e4SyncSuperblock

/-- The inode of a file that could not be created is given back. -/
def giveBack (ino pref : Nat) : Cmd World Unit := do
  Cmd.ignore (e4FreeInode ino)
  Cmd.ignore (e4SyncGd pref)
  Cmd.fail

/-- The part of `ext4_write` that creates the file; `clock k` is what the call number `k` of
`e4_now` in it returns. -/
def createFile (clock : Nat → Nat) (parent : Nat) (name : List UInt8) (data : Bytes) (len : Nat) :
    Cmd World Unit := do
  let w ← Cmd.get
  let _ ← e4ReadInode parent w.stackJunk
  let w ← Cmd.get
  let pref := (parent - 1) / w.e4.inodesPerGroup
  let newino ← e4AllocInode pref 0x81A4
  let w ← Cmd.get
  match ← Cmd.attempt (doReplace (clock 1) newino (freshInode w.e4 (clock 0) newino) data len) with
  | none => giveBack newino pref
  | some nin =>
    match ← Cmd.attempt (e4DirAddEntry (clock 2) parent name newino detReg) with
    | none => do
      Cmd.ignore (e4Truncate nin 0)
      giveBack newino pref
    | some _ => storeSuper

/-- The part of `ext4_write` that replaces a file found. -/
def replaceFile (now existing : Nat) (data : Bytes) (len : Nat) : Cmd World Unit := do
  let w ← Cmd.get
  let inode ← e4ReadInode existing w.stackJunk
  if e4IsDir inode then Cmd.fail
  else do
    let _ ← doReplace now existing inode data len
    storeSuper

def ext4Write (lookup : Lookup) (clock : Nat → Nat) (path : List UInt8) (data : Bytes) (len : Nat) :
    Cmd World Unit := do
  let w ← Cmd.get
  if w.e4.dev = none then Cmd.fail
  else if ext4WriteCap < len then Cmd.fail
  else do
    let (name, parent) ← resolveParent lookup path
    match ← Cmd.attempt (lookup parent name) with
    | some existing => replaceFile (clock 0) existing data len
    | none => createFile clock parent name data len

def ext4Unlink (lookup : Lookup) (path : List UInt8) : Cmd World Unit := do
  let w ← Cmd.get
  if w.e4.dev = none then Cmd.fail
  else do
    let (name, parent) ← resolveParent lookup path
    let victim ← lookup parent name
    if victim = ext4RootIno then Cmd.fail
    else do
      let w ← Cmd.get
      let v ← e4ReadInode victim w.stackJunk
      let empty ← if e4IsDir v then e4DirEmpty victim else pure true
      if empty = false then Cmd.fail
      else do
        e4DirRemoveEntry parent name
        Cmd.ignore (e4Truncate v 0)
        Cmd.ignore (e4FreeInode victim)
        let w ← Cmd.get
        Cmd.ignore (e4SyncGd ((victim - 1) / w.e4.inodesPerGroup))
        storeSuper

end Obsidian.Fs
