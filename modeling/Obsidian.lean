import Obsidian.Arch.FdtCpus
import Obsidian.Drivers.Console
import Obsidian.Drivers.E1000Rx
import Obsidian.Drivers.E1000Tx
import Obsidian.Drivers.Keyboard
import Obsidian.Drivers.VirtioChain
import Obsidian.Fs.AppendRead
import Obsidian.Fs.BlockAddress
import Obsidian.Fs.BlockFaults
import Obsidian.Fs.ChecksumSet
import Obsidian.Fs.CommitTrack
import Obsidian.Fs.CsumTables
import Obsidian.Fs.DirBlock
import Obsidian.Fs.FileRead
import Obsidian.Fs.IndirectFree
import Obsidian.Fs.InodeIsolation
import Obsidian.Fs.InodeUndo
import Obsidian.Fs.JournalCrash
import Obsidian.Fs.PathAgree
import Obsidian.Fs.Ramfs
import Obsidian.Fs.RevokeBounds
import Obsidian.Init.Cmdline
import Obsidian.Klib.PrintkNumber
import Obsidian.Klib.PrintkReads
import Obsidian.Mm.HeapCData
import Obsidian.Mm.HeapCSizes
import Obsidian.Mm.HeapCStale
import Obsidian.Mm.HeapRustSafety
import Obsidian.Mm.PmmFrames
import Obsidian.Net.AddressOrder
import Obsidian.Net.TcpAdmission
import Obsidian.Init.BootFlow
import Obsidian.Drivers.Acpi
import Obsidian.Klib.Udivmod
import Obsidian.Net.Acknowledge
