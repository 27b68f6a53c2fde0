import Blub.Lib.Bytes
import Blub.Lib.DList
import Blub.Lib.Spans
import Blub.Lib.Trace
import Blub.Stand.Zalloc
import Blub.Stand.ZallocSpec
import Blub.Stand.ZallocInvariant
import Blub.Boot.Bcache
import Blub.Boot.BcacheCoherence
import Blub.Fgdisk.Map
import Blub.Fgdisk.MapSpec
import Blub.Fgdisk.MapInvariant
import Blub.Crc32
import Blub.Icrc32
import Blub.Icrc32Spec
import Blub.Gpt.Layout
import Blub.Boot.Gpt
import Blub.Boot.GptSpec
import Blub.Boot.GptOrder
import Blub.Boot.GptCopy
import Blub.Boot.GptConv
import Blub.Boot.GptRead
import Blub.Boot.GptMirror
import Blub.Fgdisk.Gpt
import Blub.Fgdisk.Open
import Blub.Boot.Conditionals
import Blub.Boot.Dvar
import Blub.Boot.DiskCache
import Blub.Stand.ReadAhead
import Blub.Boot.Parse
import Blub.Boot.BackslashBounds
import Blub.Stand.Net
import Blub.Stand.Tftp
import Blub.Stand.Bootp
import Blub.Fgdisk.Add
import Blub.Fgdisk.Resize
import Blub.Fgdisk.Alloc
import Blub.Fgdisk.Create
import Blub.Fgdisk.CreateSpec
import Blub.Fgdisk.GptBounds
import Blub.Fgdisk.Meatbag
import Blub.Fgdisk.Label
import Blub.Fgdisk.LabelBounds
import Blub.Fgdisk.Disklabel32
import Blub.Fgdisk.Verify
import Blub.Stand.Device
import Blub.Stand.EnvironmentSpec
import Blub.Stand.Hammer2
import Blub.Stand.Hammer2Coherence
import Blub.Stand.Hammer2Stall
import Blub.Stand.HammerCache
import Blub.Stand.HammerRead
import Blub.Stand.HammerFile
import Blub.Stand.HammerBtree
import Blub.Stand.HammerBtreeSpec
import Blub.Stand.Malloc
import Blub.Stand.MallocContract
import Blub.Stand.Nfs
import Blub.Stand.Ufs
import Blub.Stand.UfsRead
import Blub.Boot.Ufsread
import Blub.Boot.UfsreadSpec
import Blub.Boot.Fsfind
import Blub.Boot.Boot2Load
import Blub.Boot.FsfindSpec
import Blub.Boot.Lookup
import Blub.Stand.Hammer2Resolve
import Blub.Stand.UfsResolve
import Blub.Stand.DosfsGeometry
import Blub.Stand.Cd9660Scan
import Blub.Stand.SplitfsSpec
import Blub.Stand.DosFileSpec
import Blub.Stand.Ext2fsGeometry
import Blub.Stand.DirectoryScans
import Blub.Lib.Fields
import Blub.Stand.ZBuf
import Blub.Stand.ZHeader
import Blub.Stand.ZFile
import Blub.Boot.DiskResolve
import Blub.Lib.Decimal
import Blub.Boot.DiskNames
import Blub.Boot.GptTable
import Blub.Boot.Part
import Blub.Boot.PartExtents
import Blub.Boot.PartGpt
import Blub.Boot.ParsePieces
import Blub.Boot.ParseTokens
import Blub.Lib.Nesting
import Blub.Boot.IncludeSpec
import Blub.Boot.ModuleLoad
import Blub.Lib.OnesSum
import Blub.Lib.Slice
import Blub.Stand.InCksum
import Blub.Stand.Udp
import Blub.Stand.UdpRoundTrip
import Blub.Stand.TftpWhole
import Blub.Boot.ElfHash
import Blub.Boot.ElfSymbol
import Blub.Boot.ElfWalk
import Blub.Lib.Distinct
import Blub.Boot.ModuleDirs
import Blub.Boot.Hints
import Blub.Boot.ElfLoad
import Blub.Lib.Placing
import Blub.Boot.ElfObj
import Blub.Lib.Patches
import Blub.Boot.ElfReloc
import Blub.Lib.Paths
import Blub.Boot.Chdir
import Blub.Boot.ChdirRuns
import Blub.Boot.ChdirBack
import Blub.Boot.ChdirSpec
import Blub.Lib.Digits
import Blub.Stand.Qdivrem
import Blub.Stand.SeekFault
import Blub.Boot.EfiPart
import Blub.Stand.Arp
import Blub.Boot.EfiCopy
import Blub.Lib.LastWrite
import Blub.Lib.Text
import Blub.Stand.Rfc1048
import Blub.Stand.NfsReply
import Blub.Stand.NfsListing
import Blub.Stand.NfsDatagram
import Blub.Lib.Growing
import Blub.Stand.MallocSizes
import Blub.Lib.Copies
import Blub.Lib.Records
import Blub.Lib.Strings
import Blub.Boot.HandOver
import Blub.Boot.HandOverRecords
import Blub.Boot.HandOverMemory
import Blub.Boot.HandOverSpec
import Blub.Boot.BiosDiskSpec
import Blub.Boot.BiosReads
import Blub.Boot.Boot2ParseSpec
