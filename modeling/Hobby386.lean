import Hobby386.Fs.Bitmap
import Hobby386.Fs.BitmapCalls
import Hobby386.Fs.Calls
import Hobby386.Fs.Chunks
import Hobby386.Fs.Complete
import Hobby386.Fs.Components
import Hobby386.Fs.Creation
import Hobby386.Fs.Directory
import Hobby386.Fs.Durable
import Hobby386.Fs.Format
import Hobby386.Fs.FreeInode
import Hobby386.Fs.Inode
import Hobby386.Fs.Kept
import Hobby386.Fs.Layout
import Hobby386.Fs.Lookup
import Hobby386.Fs.Mknod
import Hobby386.Fs.MknodRoom
import Hobby386.Fs.Naming
import Hobby386.Fs.NegativeSize
import Hobby386.Fs.OtherBlocks
import Hobby386.Fs.Path
import Hobby386.Fs.PathBuffers
import Hobby386.Fs.PathParts
import Hobby386.Fs.Position
import Hobby386.Fs.Reachable
import Hobby386.Fs.ReadCount
import Hobby386.Fs.ReadFile
import Hobby386.Fs.ReadPosition
import Hobby386.Fs.ReadTree
import Hobby386.Fs.Regions
import Hobby386.Fs.Remount
import Hobby386.Fs.Returns
import Hobby386.Fs.Rollback
import Hobby386.Fs.Sound
import Hobby386.Fs.State
import Hobby386.Fs.Traverse
import Hobby386.Fs.Tree
import Hobby386.Fs.WriteBlocks
import Hobby386.Fs.WriteContent
import Hobby386.Fs.WriteFile
import Hobby386.Fs.WriteFrame
import Hobby386.Fs.WriteIdle
import Hobby386.Fs.WriteNodes
import Hobby386.Fs.WritePosition
import Hobby386.Fs.WriteRoom
import Hobby386.Fs.WriteSize
import Hobby386.Fs.WriteTraversal
import Hobby386.Fs.WriteTree
import Hobby386.Grab.Boot
import Hobby386.Grab.BootMenu
import Hobby386.Grab.CommandOutput
import Hobby386.Grab.CommandWords
import Hobby386.Grab.Compare
import Hobby386.Grab.Editor
import Hobby386.Grab.FormatString
import Hobby386.Grab.Ide
import Hobby386.Grab.IdeBus
import Hobby386.Grab.IdeDrives
import Hobby386.Grab.Install
import Hobby386.Grab.Kbd
import Hobby386.Grab.LineBuffer
import Hobby386.Grab.Modifiers
import Hobby386.Grab.Numerals
import Hobby386.Grab.Page
import Hobby386.Grab.Pci
import Hobby386.Grab.PciScan
import Hobby386.Grab.PciTable
import Hobby386.Grab.Printf
import Hobby386.Grab.PromptBoot
import Hobby386.Grab.PromptLine
import Hobby386.Grab.Rows
import Hobby386.Grab.ScanBytes
import Hobby386.Grab.Shell
import Hobby386.Grab.Stage1
import Hobby386.Grab.Start
import Hobby386.Grab.SystemBoot
import Hobby386.Grab.TextMemory
import Hobby386.Grab.Typing
import Hobby386.Grab.VarArgs
import Hobby386.Grab.Vga
import Hobby386.Kernel.Start
import Hobby386.Lib.Alike
import Hobby386.Lib.FirstFit
import Hobby386.Lib.Fuel
import Hobby386.Lib.Lanes
import Hobby386.Lib.LittleEndian
import Hobby386.Lib.Page
import Hobby386.Lib.PointerCells
import Hobby386.Lib.PointerForest
import Hobby386.Lib.PointerPaths
import Hobby386.Lib.Polling
import Hobby386.Lib.Regions
import Hobby386.Lib.Runs
import Hobby386.Lib.Segments
import Hobby386.Lib.TextCursor
import Hobby386.Lib.Walk
import Hobby386.Lib.Words
import Hobby386.Mkfs.Commands
import Hobby386.Mkfs.Failures
import Hobby386.Mkfs.FileRoom
import Hobby386.Mkfs.ImageFile
import Hobby386.Mkfs.Main
import Hobby386.Mkfs.Migrate
import Hobby386.Mkfs.Partitions
import Hobby386.Mkfs.Session
